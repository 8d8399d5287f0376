import UdjatNetwork.Theorems.Later

/-! # The report of a packet that fails

When `sendto` fails with `ENETUNREACH`, the error is reported to the hosts of the list with the identifier of the packet:
each gives its worker a result and leaves the list. Here a pass of the timer is followed from host to host, up to the
first error that is reported to other hosts than the one it is about. -/

namespace UdjatNetwork.Icmp
open Pass Machine Controller

variable {s t u : Controller} {h : Host} {env : Nat → TimerEnv} {i : Input} {done rest : List Host}

/-- The operations that send packets. -/
def Controller.Input.Sending : Input → Prop
  | .insert _ _ => True
  | .task _ => True
  | _ => False

/-- How `sendto` fails for the packet of the host in the node, if the operation sends one. -/
def Controller.Input.errno : Input → Nat → Option Nat
  | .insert _ env, _ => env.send.errno
  | .task env, n => (env n).send.errno
  | _, _ => none

/-- The deadline of the host is over. -/
def Controller.Input.Expires : Input → Host → Prop
  | .task env, h => h.Expired env
  | _, _ => False

def Controller.Input.Inserts : Input → WorkerId → Prop
  | .insert w _, v => v = w
  | _, _ => False

/-- The worker of the host in the node, which is in the list or about to be inserted. -/
def Controller.Owner (s : Controller) (i : Input) (n : Nat) (w : WorkerId) : Prop :=
  (∃ h ∈ s.hosts, h.node = n ∧ h.worker = w) ∨ (n = s.nodes ∧ i.Inserts w)

/-- The operation sent a packet of the host in the node, and `sendto` failed with `ENETUNREACH`. -/
def Failed (i : Input) (s t : Controller) (n : Nat) : Prop :=
  (s.probes n).length < (t.probes n).length ∧ i.errno n = some ENETUNREACH

/-- A host whose packet failed is gone, and its worker is not busy and was told once. The other hosts were told
    nothing, unless their deadline is over, and stay; their workers are what they were. -/
structure Report (i : Input) (s t : Controller) : Prop where
  gone : ∀ n, Failed i s t n → n ∉ t.nodeList
  told : ∀ n w, s.Owner i n w → Failed i s t n →
    t.results n = s.results n ++ [.set n w .networkUnreachable .empty] ∧ t.world.busy w = false
  stays : ∀ h ∈ s.hosts, ¬ Failed i s t h.node → ¬ i.Expires h →
    t.results h.node = s.results h.node ∧ ∃ next packets, { h with next, packets } ∈ t.hosts
  expires : ∀ h ∈ s.hosts, ¬ Failed i s t h.node → i.Expires h →
    t.results h.node = s.results h.node ∨ t.results h.node = s.results h.node ++ [.set h.node h.worker .timeout .empty]
  workers : ∀ v, ¬ i.Inserts v → (∀ h ∈ s.hosts, h.worker = v → ¬ Failed i s t h.node ∧ ¬ i.Expires h) →
    t.world.workers v = s.world.workers v

/-! ### A visit -/

section Visit
variable {w : World} {v : Visit Host}

theorem Visited.expires (hv : Visited env h u w v) (hover : h.Expired env) :
    w.log = u.world.log ++ [.set h.node h.worker .timeout .empty] ∧ w.sent = u.world.sent := by
  cases hv with
  | throwing => exact ⟨rfl, rfl⟩
  | expired => exact ⟨rfl, rfl⟩
  | silent hno => exact absurd hover hno
  | sent hsend => exact absurd hover (not_lt.mpr hsend.1.1)
  | failed hfail | gone hfail => exact absurd hover (not_expired hfail)

theorem Visited.stays (hv : Visited env h u w v) (hover : ¬ h.Expired env) (hok : ¬ u.Unreachable env h) :
    (∃ next packets, v = .keep { h with next, packets }) ∧ w.log = u.world.log ∧ w.workers = u.world.workers ∧
      (w.sent = u.world.sent ∨ (env h.node).send.errno ≠ some ENETUNREACH) := by
  cases hv with
  | throwing hno | expired hno => exact absurd hno hover
  | silent _ hsend hb =>
    refine ⟨?_, rfl, rfl, Or.inl rfl⟩
    rcases hb with rfl | rfl
    · exact ⟨_, _, rfl⟩
    · exact ⟨_, _, rfl⟩
  | sent hsend => exact ⟨⟨_, _, rfl⟩, rfl, rfl, Or.inr fun herrno => hok ⟨hsend, herrno⟩⟩
  | failed hfail | gone hfail => exact absurd hfail hok

theorem Visited.completes (hv : Visited env h u w v) (hfail : u.Unreachable env h)
    (hset : u.Unreachable env h → (env h.node).send.throws h.node = false) :
    v = .drop ∧ w.log = u.world.log ++ [.set h.node h.worker .networkUnreachable .empty] ∧
      w.sent = u.world.sent ++ [u.probe h (env h.node).send] ∧ w.busy h.worker = false := by
  cases hv with
  | throwing hno | expired hno => exact absurd hno (not_expired hfail)
  | silent _ hsend => exact absurd hfail.1 hsend
  | sent _ hok => exact absurd hfail hok
  | failed _ hthrows => simp [hset hfail] at hthrows
  | gone => exact ⟨rfl, rfl, rfl, by simp⟩

/-- A visit changes the worker of its host only, and makes no worker busy. -/
theorem Visited.workers (hv : Visited env h u w v) (x : WorkerId) :
    (h.worker ≠ x → w.workers x = u.world.workers x) ∧ (u.world.busy x = false → w.busy x = false) := by
  have free : ∀ w : World, w.workers = u.world.workers →
      (h.worker ≠ x → (w.setBusy h.worker false).workers x = u.world.workers x) ∧
      (u.world.busy x = false → (w.setBusy h.worker false).busy x = false) := fun w hw => by
    refine ⟨fun hx => ?_, fun hb => ?_⟩
    · rw [← hw]
      exact if_neg (Ne.symm hx)
    · rw [World.busy_setBusy, World.busy, hw]
      split_ifs
      · rfl
      · exact hb
  cases hv with
  | throwing | silent | sent | failed => exact ⟨fun _ => rfl, id⟩
  | expired => exact free _ rfl
  | gone => exact free _ rfl

/-- A visit adds no result and no packet to the other nodes. -/
theorem Visited.other (hv : Visited env h u t.world v) {n : Nat} (hn : n ≠ h.node) :
    t.results n = u.results n ∧ t.probes n = u.probes n := by
  have hspares := hv.spares (n := n) (Ne.symm hn)
  exact ⟨by rw [Controller.results, hspares.events, Controller.results], hspares.sent⟩

end Visit

/-! ### The list after a visit -/

section After
variable {w : World} {v : Visit Host} {x : Host}

/-- The hosts after the visit of one of them. -/
def after (done : List Host) (h : Host) (rest : List Host) : Visit Host → List Host
  | .keep b => done ++ b :: rest
  | .drop => done ++ rest
  | .raise => done ++ h :: rest

theorem mem_after (hv : Visited env h u w v) (hx : x ∈ after done h rest v) : x.node = h.node ∨ x ∈ done ++ h :: rest := by
  cases v with
  | keep b =>
    obtain ⟨next, packets, rfl⟩ := hv.kept
    simp only [after, List.mem_append, List.mem_cons] at hx ⊢
    rcases hx with hx | rfl | hx
    · exact Or.inr (Or.inl hx)
    · exact Or.inl rfl
    · exact Or.inr (Or.inr (Or.inr hx))
  | drop =>
    simp only [after, List.mem_append, List.mem_cons] at hx ⊢
    tauto
  | raise => exact Or.inr hx

theorem mem_after_of_ne (hx : x ∈ done ++ h :: rest) (hne : x ≠ h) : x ∈ after done h rest v := by
  cases v with
  | keep b =>
    simp only [after, List.mem_append, List.mem_cons] at hx ⊢
    tauto
  | drop =>
    simp only [after, List.mem_append, List.mem_cons] at hx ⊢
    tauto
  | raise => exact hx

theorem map_after (hv : Visited env h u w v) :
    ((after done h rest v).map (·.node)).Sublist ((done ++ h :: rest).map (·.node)) := by
  cases v with
  | keep b =>
    obtain ⟨next, packets, rfl⟩ := hv.kept
    simp [after]
  | drop => exact ((List.sublist_cons_self h rest).append_left done).map _
  | raise => exact List.Sublist.refl _

end After

/-! ### The pass -/

/-- The pass between two visits: `done` are the hosts that it kept, and `rest` those ahead. -/
structure Midway (env : Nat → TimerEnv) (s u : Controller) (done rest : List Host) : Prop where
  reach : SameReach s u
  report : Report (.task env) s (u.withHosts (done ++ rest))
  nodes : ((done ++ rest).map (·.node)).Nodup
  ahead : ∀ x ∈ rest, x ∈ s.hosts ∧ u.results x.node = s.results x.node ∧ u.probes x.node = s.probes x.node
  behind : ∀ x ∈ done, x.node ∈ s.nodeList

section Midway
variable {v : Visit Host}

theorem Midway.not_failed (hm : Midway env s u done rest) {x : Host} (hx : x ∈ done ++ rest) :
    ¬ Failed (.task env) s u x.node :=
  fun hf => hm.report.gone _ hf (List.mem_map.mpr ⟨x, hx, rfl⟩)

/-- After the visit the packet of the host failed, if it did, and those of the other hosts failed before. -/
theorem Midway.failed_iff (hm : Midway env s u done (h :: rest)) (hv : Visited env h u t.world v)
    (hset : u.Unreachable env h → (env h.node).send.throws h.node = false) (n : Nat) :
    Failed (.task env) s t n ↔ (n = h.node ∧ u.Unreachable env h) ∨ (n ≠ h.node ∧ Failed (.task env) s u n) := by
  obtain ⟨-, -, hprobes⟩ := hm.ahead h List.mem_cons_self
  by_cases hn : n = h.node
  · subst hn
    have hsent : t.world.sent = u.world.sent → ¬ Failed (.task env) s t h.node := fun hsent hf => by
      have hsame : t.probes h.node = u.probes h.node := by rw [Controller.probes, hsent, Controller.probes]
      exact hm.not_failed (List.mem_append_right done List.mem_cons_self) ⟨hsame ▸ hf.1, hf.2⟩
    simp only [ne_eq, not_true_eq_false, true_and, false_and, or_false]
    constructor
    · intro hf
      by_contra hok
      by_cases hover : h.Expired env
      · exact hsent (hv.expires hover).2 hf
      · obtain ⟨-, -, -, hsame | herrno⟩ := hv.stays hover hok
        · exact hsent hsame hf
        · exact herrno hf.2
    · intro hfail
      obtain ⟨-, -, hsent, -⟩ := hv.completes hfail hset
      refine ⟨?_, hfail.2⟩
      rw [← hprobes, Controller.probes, Controller.probes, hsent]
      simp [Controller.probe]
  · simp only [hn, false_and, false_or, ne_eq, not_false_eq_true, true_and]
    unfold Failed
    rw [(hv.other hn).2]

/-- The step lemma: a visit of a host whose packet, if it fails, completes it, keeps the report. -/
theorem Midway.visited (hs : (s.hosts.map (·.node)).Nodup) (hm : Midway env s u done (h :: rest))
    (hv : Visited env h u t.world v) (hset : u.Unreachable env h → (env h.node).send.throws h.node = false)
    (hhosts : t.hosts = after done h rest v) : Report (.task env) s t := by
  obtain ⟨-, hnot⟩ := nodup_map_middle hm.nodes
  obtain ⟨hh, hresults, -⟩ := hm.ahead h List.mem_cons_self
  have hunique : ∀ y ∈ s.hosts, y.node = h.node → y = h := fun y hy he => List.inj_on_of_nodup_map hs hy hh he
  have hfailed := hm.failed_iff hv hset
  have own : Failed (.task env) s t h.node ↔ u.Unreachable env h := by simp [hfailed]
  have other : ∀ n, n ≠ h.node → (Failed (.task env) s t n ↔ Failed (.task env) s u n) := fun n hn => by simp [hfailed, hn]
  refine ⟨fun n hf hn => ?_, fun n w ho hf => ?_, fun y hy hf hover => ?_, fun y hy hf hover => ?_, fun x _ hx => ?_⟩
  · by_cases hne : n = h.node
    · subst hne
      obtain ⟨rfl, -⟩ := hv.completes (own.mp hf) hset
      rw [Controller.nodeList, hhosts] at hn
      exact hnot hn
    · obtain ⟨x, hx, rfl⟩ := List.mem_map.mp hn
      have hmem := (mem_after hv (hhosts ▸ hx)).resolve_left hne
      exact hm.not_failed hmem ((other _ hne).mp hf)
  · by_cases hne : n = h.node
    · subst hne
      obtain ⟨-, hlog, -, hbusy⟩ := hv.completes (own.mp hf) hset
      rcases ho with ⟨y, hy, hyn, rfl⟩ | ⟨-, hins⟩
      · obtain rfl := hunique y hy hyn
        rw [results_set hlog, if_pos rfl, hresults]
        exact ⟨rfl, hbusy⟩
      · exact hins.elim
    · obtain ⟨hres, hbusy⟩ := hm.report.told n w ho ((other n hne).mp hf)
      exact ⟨(hv.other hne).1.trans hres, (hv.workers w).2 hbusy⟩
  · by_cases hne : y.node = h.node
    · obtain rfl := hunique y hy hne
      obtain ⟨⟨next, packets, rfl⟩, hlog, -⟩ := hv.stays hover fun hfail => hf (own.mpr hfail)
      refine ⟨?_, next, packets, ?_⟩
      · rw [← hresults, Controller.results, hlog, Controller.results]
      · rw [hhosts]
        exact List.mem_append_right _ List.mem_cons_self
    · obtain ⟨hres, next, packets, hmem⟩ := hm.report.stays y hy (fun hf' => hf ((other _ hne).mpr hf')) hover
      refine ⟨(hv.other hne).1.trans hres, next, packets, ?_⟩
      rw [hhosts]
      exact mem_after_of_ne hmem fun he => hne (by rw [← he])
  · by_cases hne : y.node = h.node
    · obtain rfl := hunique y hy hne
      rw [results_set (hv.expires hover).1, if_pos rfl, hresults]
      exact Or.inr rfl
    · rw [(hv.other hne).1]
      exact hm.report.expires y hy (fun hf' => hf ((other _ hne).mpr hf')) hover
  · have hsame : u.world.workers x = s.world.workers x := hm.report.workers x not_false fun y hy hw => by
      refine ⟨fun hf => ?_, (hx y hy hw).2⟩
      by_cases hne : y.node = h.node
      · exact hm.not_failed (List.mem_append_right done List.mem_cons_self) (hne ▸ hf)
      · exact (hx y hy hw).1 ((other _ hne).mpr hf)
    rw [← hsame]
    by_cases hw : h.worker = x
    · obtain ⟨hno, hover⟩ := hx h hh hw
      rw [(hv.stays hover fun hfail => hno (own.mpr hfail)).2.2.1]
    · exact (hv.workers x).1 hw

theorem Midway.next (hs : (s.hosts.map (·.node)).Nodup) (hm : Midway env s u done (h :: rest))
    (hset : u.Unreachable env h → (env h.node).send.throws h.node = false) {k : List Host}
    (hkept : after done h rest (visit env h u).2 = k ++ rest) : Midway env s (visit env h u).1 k rest := by
  have hv := Icmp.visited env h u
  obtain ⟨-, hnot⟩ := nodup_map_middle hm.nodes
  refine ⟨hm.reach.trans (visit_sameReach env h u), hm.visited hs hv hset hkept.symm, ?_, fun x hx => ?_, fun x hx => ?_⟩
  · rw [← hkept]
    exact (map_after hv).nodup hm.nodes
  · have hne : x.node ≠ h.node := fun he => hnot (List.mem_map.mpr ⟨x, List.mem_append_right done hx, he⟩)
    obtain ⟨hmem, hresults, hprobes⟩ := hm.ahead x (List.mem_cons_of_mem h hx)
    obtain ⟨hresults', hprobes'⟩ := hv.other hne
    exact ⟨hmem, hresults'.trans hresults, hprobes'.trans hprobes⟩
  · have known : ∀ y ∈ h :: rest, y.node ∈ s.nodeList := fun y hy => List.mem_map.mpr ⟨y, (hm.ahead y hy).1, rfl⟩
    rcases mem_after hv (hkept ▸ List.mem_append_left rest hx) with he | hx
    · exact he ▸ known h List.mem_cons_self
    · rcases List.mem_append.mp hx with hx | hx
      · exact hm.behind x hx
      · exact known x hx

end Midway

/-! ### A report to the wrong hosts -/

theorem results_of_told {x : Host} {w : World} (hlog : w.log = u.world.log) (htold : Told x w t.world) :
    ∃ mid, u.results x.node ++ mid ++ [.set x.node x.worker .networkUnreachable .empty] <+: t.results x.node := by
  obtain ⟨mid, htold⟩ := htold
  refine ⟨(mid.filter (·.node = x.node)).filter (·.isSet), ?_⟩
  have hfilter := (htold.filter (·.node = x.node)).filter (·.isSet)
  have hone : (([.set x.node x.worker .networkUnreachable .empty] : List Event).filter (·.node = x.node)).filter (·.isSet) =
      [.set x.node x.worker .networkUnreachable .empty] := by simp [Event.node, Event.isSet]
  simp only [hlog, List.filter_append] at hfilter
  rw [hone] at hfilter
  exact hfilter

/-- Once a host of the list was told in vain, no report follows. -/
theorem not_report_of_told {x y : Host} (hu : Report (.task env) s u) (hy : y ∈ s.hosts) (hyn : y.node = x.node)
    (hbefore : ¬ Failed (.task env) s u x.node) {v : Controller} {w : World} (hlog : w.log = u.world.log)
    (htold : Told x w v.world) (hprobes : x.node ∈ v.nodeList ∨ v.probes x.node = u.probes x.node) (hlater : Later v t) :
    ¬ Report (.task env) s t := by
  intro ht
  obtain ⟨mid, hv⟩ := results_of_told hlog htold
  have hgrows : s.results x.node <+: u.results x.node := by
    rw [← hyn] at hbefore ⊢
    by_cases hover : y.Expired env
    · rcases hu.expires y hy hbefore hover with he | he
      · exact ⟨[], by rw [he, List.append_nil]⟩
      · exact ⟨_, he.symm⟩
    · exact ⟨[], by rw [(hu.stays y hy hbefore hover).1, List.append_nil]⟩
  obtain ⟨old, hold⟩ := hgrows
  have htotal := hv.trans (hlater.results x.node)
  rw [← hold, List.append_assoc, List.append_assoc] at htotal hv
  by_cases hf : Failed (.task env) s t x.node
  · obtain ⟨hres, -⟩ := ht.told x.node y.worker (Or.inl ⟨y, hy, hyn, rfl⟩) hf
    have hlength := hv.length_le
    have hlength' := htotal.length_le
    rw [hres] at hlength'
    by_cases hin : x.node ∈ v.nodeList
    · have hmore := hlater.left x.node hin (ht.gone x.node hf)
      rw [hres] at hmore
      simp only [List.length_append, List.length_cons, List.length_nil] at hlength hmore
      omega
    · -- The node is not in the list any more: its packet failed before.
      have hsame := (hlater.absent x.node hin).2.trans (hprobes.resolve_left hin)
      exact hbefore ⟨hsame ▸ hf.1, hf.2⟩
  · have hres : t.results x.node = s.results x.node ∨
        t.results x.node = s.results x.node ++ [.set x.node y.worker .timeout .empty] := by
      rw [← hyn] at hf ⊢
      by_cases hover : y.Expired env
      · exact ht.expires y hy hf hover
      · exact Or.inl (ht.stays y hy hf hover).1
    have hmem : ∀ l, s.results x.node ++ (old ++ (mid ++ [.set x.node x.worker .networkUnreachable .empty])) <+:
        s.results x.node ++ l → .set x.node x.worker .networkUnreachable .empty ∈ l := fun l hl =>
      ((List.prefix_append_right_inj _).mp hl).subset (by simp)
    rcases hres with hres | hres <;> rw [hres] at htotal
    · have hnil := hmem [] (by rwa [List.append_nil])
      cases hnil
    · have hone := hmem _ htotal
      simp at hone

/-- A packet that fails for other hosts as well, or whose worker throws, is never reported as it should. -/
theorem Midway.not_reported (hm : Midway env s u done (h :: rest)) {v : Controller} {r : List Host × World × Bool}
    (hbad : ¬ ((env h.node).send.throws h.node = false ∧ ∀ x ∈ done ++ rest, x.id ≠ h.id))
    (hr : r = sweep (errorPred ENETUNREACH (u.probe h (env h.node).send).payload (env h.node).send.throws)
      (done ++ h.counted u (env h.node).send :: rest) (u.sentWorld h (env h.node).send))
    (hhosts : v.hosts = r.1) (hworld : v.world = r.2.1) (hlater : Later v t) : ¬ Report (.task env) s t := by
  obtain ⟨-, hnot⟩ := nodup_map_middle hm.nodes
  have hbad : (env h.node).send.throws h.node = true ∨ ∃ x ∈ done ++ rest, x.id = h.id := by
    by_contra hnone
    obtain ⟨hthrows, hids⟩ := not_or.mp hnone
    exact hbad ⟨by simpa using hthrows, fun x hx hid => hids ⟨x, hx, hid⟩⟩
  have hid : (u.probe h (env h.node).send).payload.id = (h.counted u (env h.node).send).id := rfl
  obtain ⟨x, hx, htold, hstays⟩ : ∃ x ∈ done ++ h.counted u (env h.node).send :: rest,
      Told x (u.sentWorld h (env h.node).send) r.2.1 ∧ (x ∈ done ++ rest ∨ x.node ∈ r.1.map (·.node)) :=
    hr ▸ told_of_not_alone hid hbad _
  rw [← hworld] at htold
  -- The host that is told is one of the list, and no packet of it failed before.
  have hnode : x.node ∈ (u.withHosts (done ++ h :: rest)).nodeList := by
    have hmem : x.node ∈ (done ++ h.counted u (env h.node).send :: rest).map (·.node) := List.mem_map.mpr ⟨x, hx, rfl⟩
    rw [List.map_append, List.map_cons] at hmem
    rw [Controller.nodeList, Controller.withHosts, List.map_append, List.map_cons]
    exact hmem
  have hknown : x.node ∈ s.nodeList := by
    obtain ⟨z, hz, hzn⟩ := List.mem_map.mp hnode
    rw [← hzn]
    rcases List.mem_append.mp hz with hz | hz
    · exact hm.behind z hz
    · exact List.mem_map.mpr ⟨z, (hm.ahead z hz).1, rfl⟩
  obtain ⟨y, hy, hyn⟩ := List.mem_map.mp hknown
  have hbefore : ¬ Failed (.task env) s u x.node := fun hf => hm.report.gone _ hf hnode
  refine not_report_of_told hm.report hy hyn hbefore rfl htold ?_ hlater
  rcases hstays with hx | hin
  · refine Or.inr ?_
    have hne : h.node ≠ x.node := fun he => hnot (List.mem_map.mpr ⟨x, hx, he.symm⟩)
    have hsent : v.world.sent = (u.sentWorld h (env h.node).send).sent := by rw [hworld, hr, errorSweep_sent]
    rw [Controller.probes, hsent]
    exact (sentWorld_spares hne u _).sent
  · rw [← hhosts] at hin
    exact Or.inl hin

theorem Midway.pass_not_reported (hm : Midway env s u done (h :: rest)) (hfail : u.Unreachable env h)
    (hbad : ¬ ((env h.node).send.throws h.node = false ∧ ∀ x ∈ done ++ rest, x.id ≠ h.id))
    (ht : (removeIf nodeList unlink (timerPred env) ((h :: rest).map Host.node) (u.withHosts (done ++ h :: rest))).state? =
      some t) : ¬ Report (.task env) s t := by
  obtain ⟨v, hpred, -, r, hr, hhosts, hworld⟩ := timerPred_unreachable hm.nodes hfail
  have hmem : h.node ∈ nodeList (u.withHosts (done ++ h :: rest)) :=
    List.mem_map.mpr ⟨h, List.mem_append_right done List.mem_cons_self, rfl⟩
  rw [List.map_cons, removeIf, if_pos hmem, hpred] at ht
  dsimp only at ht
  split_ifs at ht
  · exact hm.not_reported hbad hr hhosts hworld (.of_removeIf ht)
  · cases ht

/-! ### The condition -/

/-- The condition on the hosts ahead of the pass, `done` being those that it kept. -/
def Scanned (env : Nat → TimerEnv) (s : Controller) (done rest : List Host) : Prop :=
  ∀ pre h post, rest = pre ++ h :: post → (∀ x ∈ pre, ¬ x.Raises env) → s.Unreachable env h →
    (env h.node).send.throws h.node = false ∧ (∀ x ∈ post, x.id ≠ h.id) ∧ (∀ x ∈ pre, x.id = h.id → x.Expired env) ∧
      ∀ x ∈ done, x.id ≠ h.id

theorem forall_split_cons {α : Type} {a : α} {l : List α} {P : List α → α → List α → Prop} :
    (∀ pre x post, a :: l = pre ++ x :: post → P pre x post) ↔
      P [] a l ∧ ∀ pre x post, l = pre ++ x :: post → P (a :: pre) x post := by
  refine ⟨fun h => ⟨h [] a l rfl, fun pre x post he => h (a :: pre) x post (by rw [he]; rfl)⟩, fun h pre x post he => ?_⟩
  cases pre with
  | nil =>
    obtain ⟨rfl, rfl⟩ := List.cons.inj he
    exact h.1
  | cons b pre =>
    obtain ⟨rfl, he'⟩ := List.cons.inj he
    exact h.2 pre x post he'

theorem Scanned.first (hs : Scanned env s done (h :: rest)) (hfail : s.Unreachable env h) :
    (env h.node).send.throws h.node = false ∧ ∀ x ∈ done ++ rest, x.id ≠ h.id := by
  obtain ⟨hthrows, hpost, -, hdone⟩ := hs [] h rest rfl (fun x hx => by cases hx) hfail
  exact ⟨hthrows, fun x hx => (List.mem_append.mp hx).elim (hdone x) (hpost x)⟩

theorem scanned_of_raises (hraises : h.Raises env) : Scanned env s done (h :: rest) :=
  forall_split_cons.mpr ⟨fun _ hfail => absurd hraises.1 (not_expired hfail),
    fun _ _ _ _ hpre => absurd hraises (hpre h List.mem_cons_self)⟩

theorem scanned_of_expired (hover : h.Expired env) (hraises : ¬ h.Raises env) :
    Scanned env s done (h :: rest) ↔ Scanned env s done rest := by
  unfold Scanned
  rw [forall_split_cons]
  have hno : ¬ s.Unreachable env h := fun hfail => absurd hover (not_expired hfail)
  simp [hno, hover, hraises]

theorem scanned_of_kept {b : Host} (hb : b.id = h.id) (hover : ¬ h.Expired env) (hno : ¬ s.Unreachable env h) :
    Scanned env s done (h :: rest) ↔ Scanned env s (done ++ [b]) rest := by
  have hraises : ¬ h.Raises env := fun hr => hover hr.1
  unfold Scanned
  rw [forall_split_cons, and_iff_right fun _ hfail => absurd hfail hno]
  refine forall₃_congr fun pre x post => imp_congr_right fun _ => ?_
  simp only [List.forall_mem_cons, List.forall_mem_append, List.not_mem_nil, hb]
  tauto

theorem scanned_of_gone (hfail : s.Unreachable env h) (hthrows : (env h.node).send.throws h.node = false)
    (hids : ∀ x ∈ done ++ rest, x.id ≠ h.id) : Scanned env s done (h :: rest) ↔ Scanned env s done rest := by
  have hraises : ¬ h.Raises env := fun hr => absurd hr.1 (not_expired hfail)
  have hfirst : (∀ x ∈ rest, x.id ≠ h.id) ∧ ∀ x ∈ done, x.id ≠ h.id :=
    ⟨fun x hx => hids x (List.mem_append_right done hx), fun x hx => hids x (List.mem_append_left rest hx)⟩
  unfold Scanned
  rw [forall_split_cons, and_iff_right fun _ _ => ⟨hthrows, hfirst.1, fun _ hx => absurd hx List.not_mem_nil, hfirst.2⟩]
  refine forall₃_congr fun pre x post => imp_congr_right fun he => ?_
  have hid : h.id ≠ x.id := Ne.symm (hfirst.1 x (by simp [he]))
  simp only [List.forall_mem_cons]
  tauto

/-- The run lemma, by induction on the hosts ahead: the callback ends with a report, if and only if every host that it
    gets to and whose packet fails is alone with its identifier. -/
theorem pass_reports (hs : (s.hosts.map (·.node)).Nodup) (hm : Midway env s u done rest) :
    (∃ t, (removeIf nodeList unlink (timerPred env) (rest.map Host.node) (u.withHosts (done ++ rest))).state? = some t ∧
      Report (.task env) s t) ↔ Scanned env s done rest := by
  induction rest generalizing done u with
  | nil => exact iff_of_true ⟨_, rfl, hm.report⟩ fun pre h post he => by simp at he
  | cons h rest ih =>
    have hreach : u.Unreachable env h ↔ s.Unreachable env h := hm.reach.unreachable
    by_cases hbad : s.Unreachable env h ∧ ¬ ((env h.node).send.throws h.node = false ∧ ∀ x ∈ done ++ rest, x.id ≠ h.id)
    · exact iff_of_false (fun ⟨t, ht, hreport⟩ => hm.pass_not_reported (hreach.mpr hbad.1) hbad.2 ht hreport)
        fun hscan => hbad.2 (hscan.first hbad.1)
    · have hgood : s.Unreachable env h → (env h.node).send.throws h.node = false ∧ ∀ x ∈ done ++ rest, x.id ≠ h.id :=
        fun hfail => not_not.mp fun hno => hbad ⟨hfail, hno⟩
      have hset : u.Unreachable env h → (env h.node).send.throws h.node = false := fun hfail => (hgood (hreach.mp hfail)).1
      have hlocal : Local Host.node withHosts (visit env) unlink (timerPred env) done h rest u :=
        visit_local hm.nodes fun hfail => (hgood (hreach.mp hfail)).2
      have hpass : removeIf nodeList unlink (timerPred env) ((h :: rest).map Host.node)
          (u.withHosts (done ++ h :: rest)) = _ := removeIf_local Host.node withHosts (visit env) (fun _ _ => rfl) hlocal
      have hv := visited env h u
      rw [hpass]
      rcases hvisit : visit env h u with ⟨w, b | _ | _⟩ <;> rw [hvisit] at hv
      · have hnext : Midway env s w (done ++ [b]) rest := by
          have hnext := hm.next hs hset (k := done ++ [b])
          rw [hvisit] at hnext
          exact hnext (by simp [after])
        obtain ⟨next, packets, rfl⟩ := hv.kept
        obtain ⟨hover, hfail⟩ := hv.verdict hset
        have hid : ({ h with next, packets } : Host).id = h.id := rfl
        have hih := ih hnext
        rw [List.append_assoc, List.singleton_append] at hih
        exact hih.trans (scanned_of_kept hid hover fun hf => hfail (hreach.mpr hf)).symm
      · have hnext : Midway env s w done rest := by
          have hnext := hm.next hs hset (k := done)
          rw [hvisit] at hnext
          exact hnext rfl
        refine (ih hnext).trans ?_
        rcases hv.verdict hset with ⟨hover, hraises⟩ | hfail
        · exact (scanned_of_expired hover hraises).symm
        · obtain ⟨hthrows, hids⟩ := hgood (hreach.mp hfail)
          exact (scanned_of_gone (hreach.mp hfail) hthrows hids).symm
      · have hreport : Report (.task env) s (w.withHosts (done ++ h :: rest)) := hm.visited hs hv hset rfl
        exact iff_of_true ⟨_, rfl, hreport⟩ (scanned_of_raises (hv.verdict hset))

end UdjatNetwork.Icmp
