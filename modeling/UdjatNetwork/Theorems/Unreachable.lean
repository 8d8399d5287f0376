import UdjatNetwork.Theorems.ErrorReport
import UdjatNetwork.Theorems.Listener

/-! # A packet that finds no network

A host whose packet fails with `ENETUNREACH` should be completed by that, and no other. The host of an insertion is not
in the list yet when its first packet fails, and a host with the identifier of another one is completed with it. -/

namespace UdjatNetwork.Icmp
open Pass Machine Controller

variable {s t : Controller} {i : Input}

/-- The operation, if it sends packets, returns or throws with such a report. -/
def Controller.Reports (s : Controller) (i : Input) : Prop := i.Sending → ∃ t, s.step i = some t ∧ Report i s t

/-- The first packet of a host does not fail; and a host that the pass gets to and whose packet fails has a worker that
    does not throw, and an identifier that no host behind it has and none before it that is still in the list. -/
def Controller.Alone (s : Controller) : Input → Prop
  | .insert w env => ¬ (s.world.busy w = false ∧ (s.openSocket env.start).2 = true ∧
      (∃ a, (s.world.workers w).addr = .inet a) ∧ env.send.errno = some ENETUNREACH)
  | .task env => s.queued ≠ 0 → ∀ pre h post, s.hosts = pre ++ h :: post → (∀ x ∈ pre, ¬ x.Raises env) →
      s.Unreachable env h → (env h.node).send.throws h.node = false ∧ (∀ x ∈ post, x.id ≠ h.id) ∧
        ∀ x ∈ pre, x.id = h.id → x.Expired env
  | _ => True

/-! ### Steps -/

theorem report_of_view (i : Input) (hview : t.view = s.view) : Report i s t := by
  have hhosts : t.hosts = s.hosts := congrArg View.hosts hview
  have hworld : t.world = s.world := congrArg View.world hview
  have hresults : ∀ n, t.results n = s.results n := fun n => by rw [Controller.results, hworld, Controller.results]
  have hnone : ∀ n, ¬ Failed i s t n := fun n hf => by
    have hprobes : t.probes n = s.probes n := by rw [Controller.probes, hworld, Controller.probes]
    exact absurd (hprobes ▸ hf.1) (Nat.lt_irrefl _)
  exact ⟨fun n hf => absurd hf (hnone n), fun n w _ hf => absurd hf (hnone n),
    fun h hh _ _ => ⟨hresults _, h.next, h.packets, hhosts ▸ hh⟩, fun h _ _ _ => Or.inl (hresults _), fun v _ _ => by rw [hworld]⟩

theorem report_stopIfEmpty : Report i s t.stopIfEmpty ↔ Report i s t := by
  unfold stopIfEmpty
  split
  · exact ⟨fun h => ⟨h.gone, h.told, h.stays, h.expires, h.workers⟩, fun h => ⟨h.gone, h.told, h.stays, h.expires, h.workers⟩⟩
  · exact Iff.rfl

theorem task_reports_iff (env : Nat → TimerEnv) (hs : Numbered s.view) : s.Reports (.task env) ↔ s.Alone (.task env) := by
  by_cases hq : s.queued = 0
  · exact iff_of_true (fun _ => ⟨s, if_pos hq, report_of_view _ rfl⟩) fun hne => absurd hq hne
  · let s₀ : Controller := { s with queued := s.queued - 1 }
    have hstep : s.step (.task env) = (s₀.timerTask env).state? := if_neg hq
    have hm : Midway env s s₀ [] s.hosts :=
      ⟨⟨rfl, fun _ => rfl⟩, report_of_view _ rfl, hs.nodup, fun x hx => ⟨hx, rfl, rfl⟩, fun x hx => by cases hx⟩
    have hpass : (∃ t, (removeIf nodeList unlink (timerPred env) s₀.nodeList s₀).state? = some t ∧
        Report (.task env) s t) ↔ Scanned env s [] s.hosts := pass_reports hs.nodup hm
    have htask : s.Reports (.task env) ↔ ∃ t, (removeIf nodeList unlink (timerPred env) s₀.nodeList s₀).state? = some t ∧
        Report (.task env) s t := by
      unfold Controller.Reports
      rw [hstep, Controller.timerTask]
      rcases removeIf nodeList unlink (timerPred env) s₀.nodeList s₀ with u | u | _
      · simp [Controller.Input.Sending, report_stopIfEmpty]
      · simp [Controller.Input.Sending]
      · simp [Controller.Input.Sending]
    rw [htask, hpass]
    simp [Scanned, Controller.Alone, hq]

section Send
variable {n : Nat} {a : Address} {p : Payload} {e : SendEnv}

theorem send_probe (hfd : 0 ≤ s.fd) (haddr : ∃ x, a = .inet x) :
    (s.send n a p e).world.sent = s.world.sent ++ [⟨n, s.seq + 1, p⟩] := by
  obtain ⟨x, rfl⟩ := haddr
  unfold Controller.send
  rw [if_neg (not_lt.mpr hfd)]
  cases e.errno with
  | none => rfl
  | some code => exact errorSweep_sent _ _ _ _ _

/-- A packet that is not sent, or does not fail with `ENETUNREACH`, concerns no host. -/
theorem send_harmless (hok : ¬ ((0 ≤ s.fd ∧ ∃ x, a = .inet x) ∧ e.errno = some ENETUNREACH)) :
    (s.send n a p e).hosts = s.hosts ∧ (s.send n a p e).world.log = s.world.log ∧
      (s.send n a p e).world.workers = s.world.workers ∧
      ((s.send n a p e).world.sent = s.world.sent ∨ e.errno ≠ some ENETUNREACH) := by
  by_cases herrno : e.errno = some ENETUNREACH
  · rw [send_of_not_reach fun hreach => hok ⟨hreach, herrno⟩]
    exact ⟨rfl, rfl, rfl, Or.inl rfl⟩
  · rcases send_cases s n a p e with hsend | ⟨-, hsend⟩ | ⟨code, w, hcode, rfl, hsend⟩ <;> rw [hsend]
    · exact ⟨rfl, rfl, rfl, Or.inl rfl⟩
    · exact ⟨rfl, rfl, rfl, Or.inr herrno⟩
    · have hne : code ≠ ENETUNREACH := fun he => herrno (he ▸ hcode)
      rw [sweep_of_keep _ _ fun x _ w => by simp [errorPred, Host.onError, hne]]
      exact ⟨rfl, rfl, rfl, Or.inr herrno⟩

end Send

section First
variable {w : WorkerId} {e : InsertEnv}

theorem afterFirst_probe (hfd : 0 ≤ s.fd) (haddr : ∃ a, (s.world.workers w).addr = .inet a) :
    ((s.afterFirst w e).probes s.nodes).length = (s.probes s.nodes).length + 1 := by
  have hsent : (s.afterFirst w e).world.sent = s.world.sent ++ [⟨s.nodes, s.seq + 1, _⟩] :=
    send_probe (s := { s with id := s.id + 1, nodes := s.nodes + 1, world := s.world.record (.inserted s.nodes w) }) hfd haddr
  rw [Controller.probes, hsent, List.filter_append, List.length_append]
  simp [Controller.probes]

theorem afterFirst_harmless (hok : ¬ ((∃ a, (s.world.workers w).addr = .inet a) ∧ e.send.errno = some ENETUNREACH)) :
    (s.afterFirst w e).hosts = s.hosts ∧ (s.afterFirst w e).world.log = s.world.log ++ [.inserted s.nodes w] ∧
      (s.afterFirst w e).world.workers = s.world.workers ∧
      ((s.afterFirst w e).world.sent = s.world.sent ∨ e.send.errno ≠ some ENETUNREACH) :=
  send_harmless (s := { s with id := s.id + 1, nodes := s.nodes + 1, world := s.world.record (.inserted s.nodes w) })
    fun ⟨⟨_, haddr⟩, herrno⟩ => hok ⟨haddr, herrno⟩

/-- A host is added, and no packet fails. -/
theorem report_of_inserted {n : Nat} (hhosts : ∀ h ∈ s.hosts, h ∈ t.hosts)
    (hlog : t.world.log = s.world.log ++ [.inserted n w]) (hworkers : ∀ x, x ≠ w → t.world.workers x = s.world.workers x)
    (hsent : t.world.sent = s.world.sent ∨ e.send.errno ≠ some ENETUNREACH) : Report (.insert w e) s t := by
  have hresults : ∀ k, t.results k = s.results k := fun k => by
    have hone : (([.inserted n w] : List Event).filter (·.node = k)).filter (·.isSet) = [] := by
      rw [List.filter_filter]
      simp [Event.isSet]
    rw [Controller.results, hlog, List.filter_append, List.filter_append, hone, List.append_nil, Controller.results]
  have hnone : ∀ k, ¬ Failed (.insert w e) s t k := by
    rintro k ⟨hmore, herrno⟩
    rcases hsent with hsent | hne
    · rw [Controller.probes, Controller.probes, hsent] at hmore
      exact Nat.lt_irrefl _ hmore
    · exact hne herrno
  exact ⟨fun k hf => absurd hf (hnone k), fun k x _ hf => absurd hf (hnone k),
    fun h hh _ _ => ⟨hresults _, h.next, h.packets, hhosts h hh⟩, fun h _ _ hover => hover.elim, fun x hx _ => hworkers x hx⟩

end First

theorem insert_reports_iff (w : WorkerId) (e : InsertEnv) (hs : Numbered s.view) :
    s.Reports (.insert w e) ↔ s.Alone (.insert w e) := by
  rcases insert_cases s w e with ⟨t, ht, hview, -⟩ | ⟨t, ht, hb, u, hu, rfl⟩
  · refine iff_of_true (fun _ => ⟨t, by rw [Controller.step, ht]; rfl, report_of_view _ hview⟩) fun ⟨hb, ho, _⟩ => ?_
    obtain ⟨u, hu⟩ := start_ok_iff.mpr ho
    simp [Controller.insert, hb, hu] at ht
  · have hview : u.view = s.view := start_view (by rw [hu]; rfl)
    have hworld : u.world = s.world := congrArg View.world hview
    have hhosts : u.hosts = s.hosts := congrArg View.hosts hview
    have hnodes : u.nodes = s.nodes := congrArg View.nodes hview
    have hfresh : ∀ x ∈ u.hosts, x.node ≠ u.nodes := fun x hx => Nat.ne_of_lt ((hview ▸ hs).lt x hx)
    let v : Controller := { u with world := u.world.setBusy w true }
    have haddr : (v.world.workers w).addr = (s.world.workers w).addr := by simp [v, hworld]
    have hstep : s.step (.insert w e) =
        some { v.afterFirst w e with hosts := (v.afterFirst w e).hosts ++ [v.newHost w e] } := by
      rw [Controller.step, ht, emplaceBack_eq (by exact hfresh)]
      rfl
    by_cases hbad : (∃ a, (s.world.workers w).addr = .inet a) ∧ e.send.errno = some ENETUNREACH
    · refine iff_of_false (fun hreports => ?_) fun halone => halone ⟨hb, start_ok_iff.mp ⟨u, hu⟩, hbad⟩
      obtain ⟨t, ht', hreport⟩ := hreports trivial
      obtain rfl := Option.some.inj (hstep.symm.trans ht')
      -- The host is put in the list after the pass that should complete it.
      have hprobe := afterFirst_probe (s := v) (w := w) (e := e) (start_ok hu).1 (haddr ▸ hbad.1)
      have hmore : (s.probes v.nodes).length < ((v.afterFirst w e).probes v.nodes).length := by
        rw [hprobe, Controller.probes, ← hworld]
        exact Nat.lt_succ_self _
      exact hreport.gone v.nodes ⟨hmore, hbad.2⟩ (List.mem_map.mpr ⟨v.newHost w e, by simp, rfl⟩)
    · refine iff_of_true (fun _ => ⟨_, hstep, ?_⟩) fun ⟨_, _, hbad'⟩ => hbad hbad'
      obtain ⟨hkept, hlog, hworkers, hsent⟩ := afterFirst_harmless (s := v) fun hbad' => hbad ⟨haddr ▸ hbad'.1, hbad'.2⟩
      refine report_of_inserted (n := v.nodes) (fun h hh => ?_) ?_ (fun x hx => ?_) ?_
      · refine List.mem_append_left _ ?_
        rw [hkept]
        exact hhosts ▸ hh
      · rw [← hworld]
        exact hlog
      · rw [← hworld]
        exact (congrFun hworkers x).trans (if_neg hx)
      · rw [← hworld]
        exact hsent

/-! ### Runs -/

theorem reports_iff (hs : Numbered s.view) (i : Input) : s.Reports i ↔ s.Alone i := by
  cases i with
  | insert w e => exact insert_reports_iff w e hs
  | task env => exact task_reports_iff env hs
  | remove | onTimer | handleEvent | address => exact iff_of_true (fun hsends => hsends.elim) trivial

/-- In every run, each packet that fails with `ENETUNREACH` completes its host and no other, as it should, if and only
    if no insertion sends such a packet, and each host whose packet fails in a pass has a worker that does not throw and
    an identifier of its own among the hosts that are still in the list. --/
theorem failures_reported_iff (pid : Nat) (workers : WorkerId → Worker) (is : List Input) :
    Along step Controller.Reports (init pid workers) is ↔ Along step Controller.Alone (init pid workers) is := by
  have hnumbered := (always_numbered pid workers is).along
  constructor
  · exact fun h => (hnumbered.and h).mono fun s i hsi => (reports_iff hsi.1 i).mp hsi.2
  · exact fun h => (hnumbered.and h).mono fun s i hsi => (reports_iff hsi.1 i).mpr hsi.2

/-- The first packet of a host fails: the host is put in the list all the same, and its worker is not told. --/
theorem first_packet_unreported :
    ¬ ∀ (pid : Nat) (workers : WorkerId → Worker) (is : List Input),
      Along step Controller.Reports (init pid workers) is := by
  intro h
  let s : Controller := init 1 fun _ => { addr := .inet 0x0100007F }
  let i : Input := .insert 0 { start := { socket := some 7 }, send := { errno := some ENETUNREACH } }
  obtain ⟨t, ht, hreport⟩ := (h 1 (fun _ => { addr := .inet 0x0100007F }) [i]).1 trivial
  have hafter : (s.step i).map (fun t => (t.nodeList, (t.probes 0).length)) = some ([0], 1) := by decide
  obtain ⟨u, hu, he⟩ := Option.map_eq_some_iff.mp hafter
  obtain rfl := Option.some.inj (ht.symm.trans hu)
  obtain ⟨hnodes, hprobes⟩ := Prod.mk.inj he
  have hfailed : Failed i s t 0 := ⟨by rw [hprobes]; decide, rfl⟩
  exact hreport.gone 0 hfailed (by simp [hnodes])

end UdjatNetwork.Icmp
