import UdjatNetwork.Theorems.Insertions
import UdjatNetwork.Theorems.TimerPass

/-! # The packets of a check

A host sends its first packet while it is constructed, and its deadline is over one interval later, when its next packet
is due. A check sends two packets at most, and numbers them in their order. -/

namespace UdjatNetwork.Icmp
open Pass Machine Controller

variable {s t : Controller} {h : Host}

/-- The clock does not go back from one reading of a call to the next one. -/
def Controller.Input.Steady : Input → Prop
  | .insert _ env => env.time ≤ env.send.time
  | .task env => ∀ n, (env n).now ≤ (env n).send.time
  | _ => True

/-- The numbers of the packets that were sent for the host in a node. -/
def Controller.numbers (s : Controller) (n : Nat) : List UInt16 := (s.probes n).map (·.payload.seq)

/-- No host sends more than a first and a second packet. -/
def Controller.Brief (s : Controller) : Prop := ∀ n, (s.numbers n).Sublist [1, 2]

/-- The next packet is not due before the deadline, and after the second one not by the deadline. -/
structure Paced (s : Controller) (h : Host) : Prop where
  due : h.timeout ≤ h.next
  counted : h.packets = 1 ∧ (s.numbers h.node).Sublist [1] ∨ h.timeout < h.next

/-- What keeps the number of packets small. -/
structure Sparing (s : Controller) : Prop where
  numbered : Numbered s.view
  intervals : ∀ w, 1 ≤ (s.world.workers w).interval
  paced : ∀ h ∈ s.hosts, Paced s h
  brief : s.Brief

theorem numbers_of_sent (hsent : t.world.sent = s.world.sent) (n : Nat) : t.numbers n = s.numbers n := by
  rw [Controller.numbers, Controller.probes, hsent, Controller.numbers, Controller.probes]

theorem numbers_of_packet {p : Sent} (hsent : t.world.sent = s.world.sent ++ [p]) (n : Nat) :
    t.numbers n = s.numbers n ++ if p.node = n then [p.payload.seq] else [] := by
  rw [Controller.numbers, Controller.probes, hsent, Controller.numbers, Controller.probes, List.filter_append,
    List.map_append]
  split_ifs with hn <;> simp [hn]

theorem Paced.of_sent (hp : Paced s h) (hsent : t.world.sent = s.world.sent) : Paced t h :=
  ⟨hp.due, by rw [numbers_of_sent hsent]; exact hp.counted⟩

theorem Paced.of_packet {p : Sent} (hp : Paced s h) (hsent : t.world.sent = s.world.sent ++ [p]) (hn : p.node ≠ h.node) :
    Paced t h :=
  ⟨hp.due, by rw [numbers_of_packet hsent, if_neg hn, List.append_nil]; exact hp.counted⟩

/-- A step that takes hosts from the list at most, and sends nothing. -/
theorem Sparing.quiet (hs : Sparing s) (hn : Numbered t.view)
    (hi : ∀ w, (t.world.workers w).interval = (s.world.workers w).interval) (hhosts : t.hosts ⊆ s.hosts)
    (hsent : t.world.sent = s.world.sent) : Sparing t where
  numbered := hn
  intervals w := by
    rw [hi]
    exact hs.intervals w
  paced h hh := (hs.paced h (hhosts hh)).of_sent hsent
  brief n := by
    rw [numbers_of_sent hsent]
    exact hs.brief n

/-! ### The timer -/

/-- What the predicate of the pass sends: a packet of a host that is due, and else nothing. -/
theorem timerPred_sends {env : Nat → TimerEnv} {n : Nat} {v : Verdict} (hp : timerPred env n s = (t, v)) :
    (t.world.sent = s.world.sent ∧ t.hosts = s.hosts) ∨
      ∃ h ∈ s.hosts, h.node = n ∧ h.Due env ∧ v = .keep ∧ t = (s.hostSend h (env n).send).1 := by
  cases hfind : s.hosts.find? (fun x => decide (x.node = n)) with
  | none =>
    rw [timerPred, hfind] at hp
    cases hp
    exact Or.inl ⟨rfl, rfl⟩
  | some h =>
    have hn : h.node = n := by simpa using List.find?_some hfind
    subst hn
    rw [timerPred_eq hfind, Controller.onTimer] at hp
    split_ifs at hp with hnow hthrows hnext <;> cases hp
    · exact Or.inl ⟨rfl, rfl⟩
    · exact Or.inl ⟨rfl, rfl⟩
    · exact Or.inr ⟨h, List.mem_of_find?_eq_some hfind, rfl, ⟨not_lt.mp hnow, hnext⟩, rfl, rfl⟩
    · exact Or.inl ⟨rfl, rfl⟩

/-- After a packet the list has the hosts it had, with the one that sent counted. -/
theorem hostSend_hosts (s : Controller) (h : Host) (e : SendEnv) :
    ∀ x ∈ (s.hostSend h e).1.hosts, x = h.counted s e ∨ (x ∈ s.hosts ∧ x.node ≠ h.node) := by
  intro x hx
  have hx : x ∈ (s.store (h.counted s e)).hosts := (send_hosts _ _ _ _).1.subset hx
  obtain ⟨y, hy, rfl⟩ := List.mem_map.mp hx
  by_cases hn : y.node = h.node
  · exact Or.inl (if_pos hn)
  · have hsame : (if y.node = (h.counted s e).node then h.counted s e else y) = y := if_neg hn
    rw [hsame]
    exact Or.inr ⟨hy, hn⟩

theorem hostSend_sent (s : Controller) (h : Host) (e : SendEnv) :
    (s.hostSend h e).1.world.sent = s.world.sent ∨ (s.hostSend h e).1.world.sent = s.world.sent ++ [s.probe h e] :=
  send_packets (s.store (h.counted s e)) h.node (s.world.workers h.worker).addr
    { id := h.id, seq := h.packets + 1, time := getCurrentTime e.clock } e

/-- A host that is due is at its deadline with its first packet, and is past it by its next one. -/
theorem Sparing.hostSend {env : Nat → TimerEnv} (hs : Sparing s) (hh : h ∈ s.hosts) (hdue : h.Due env)
    (hclock : (env h.node).now ≤ (env h.node).send.time) (hn : Numbered (s.hostSend h (env h.node).send).1.view)
    (hi : ∀ w, ((s.hostSend h (env h.node).send).1.world.workers w).interval = (s.world.workers w).interval) :
    Sparing (s.hostSend h (env h.node).send).1 := by
  obtain ⟨hnow, hnext⟩ := hdue
  have hpaced := hs.paced h hh
  obtain ⟨hone, hnumbers⟩ : h.packets = 1 ∧ (s.numbers h.node).Sublist [1] :=
    hpaced.counted.resolve_right fun hlt => absurd (hlt.trans_le (hnext.trans hnow)) (lt_irrefl _)
  have hlater : h.timeout < (h.counted s (env h.node).send).next := by
    have hinterval := hs.intervals h.worker
    have htime := hpaced.due.trans (hnext.trans hclock)
    change h.timeout < (env h.node).send.time + (s.world.workers h.worker).interval
    omega
  refine ⟨hn, fun w => by rw [hi]; exact hs.intervals w, fun x hx => ?_, fun n => ?_⟩
  · rcases hostSend_hosts s h _ x hx with rfl | ⟨hx, hxn⟩
    · exact ⟨hlater.le, Or.inr hlater⟩
    · rcases hostSend_sent s h (env h.node).send with hsent | hsent
      · exact (hs.paced x hx).of_sent hsent
      · exact (hs.paced x hx).of_packet hsent (Ne.symm hxn)
  · rcases hostSend_sent s h (env h.node).send with hsent | hsent
    · rw [numbers_of_sent hsent]
      exact hs.brief n
    · rw [numbers_of_packet hsent]
      split_ifs with hnode
      · have hseq : (s.probe h (env h.node).send).payload.seq = 2 := by
          change h.packets + 1 = 2
          rw [hone]
          rfl
        rw [← hnode, hseq]
        exact hnumbers.append (.refl [2])
      · rw [List.append_nil]
        exact hs.brief n

theorem timerTask_sparing {env : Nat → TimerEnv} (hs : Sparing s) (hclock : ∀ n, (env n).now ≤ (env n).send.time)
    (ht : (s.timerTask env).state? = some t) : Sparing t := by
  refine timerTask_induct (fun n u u' v hI hp => ?_) (fun u hI => ?_) hs ht
  · have hmoves := timerPred_moves hI.numbered hp
    have hn := hI.numbered.moves hmoves
    have hi := hmoves.interval
    rcases timerPred_sends hp with ⟨hsent, hhosts⟩ | ⟨h, hh, rfl, hdue, rfl, rfl⟩
    · refine hI.quiet hn hi ?_ ?_ <;> split_ifs
      · exact fun x hx => hhosts ▸ List.mem_of_mem_filter hx
      · exact fun x hx => hhosts ▸ hx
      · exact hsent
      · exact hsent
    · exact hI.hostSend hh hdue (hclock h.node) hn hi
  · have hview : u.stopIfEmpty.view = u.view := view_stopIfEmpty
    have hworld : u.stopIfEmpty.world = u.world := congrArg View.world hview
    have hhosts : u.stopIfEmpty.hosts = u.hosts := congrArg View.hosts hview
    exact hI.quiet (hview ▸ hI.numbered) (fun w => by rw [hworld]) (fun x hx => hhosts ▸ hx) (congrArg World.sent hworld)

/-! ### Insertions -/

theorem afterFirst_hosts (s : Controller) (w : WorkerId) (env : InsertEnv) :
    (s.afterFirst w env).hosts.Sublist s.hosts := by
  unfold Controller.afterFirst
  exact (send_hosts _ _ _ _).1

/-- An insertion adds a host with its first packet, which is for a node of its own. -/
theorem insert_sends {w : WorkerId} {env : InsertEnv} (hs : Numbered s.view) (ht : (s.insert w env).state? = some t) :
    (t.hosts = s.hosts ∧ t.world = s.world) ∨
      (∀ x ∈ t.hosts, x ∈ s.hosts ∨ x = s.newHost w env) ∧
        (t.world.sent = s.world.sent ∨
          ∃ p, t.world.sent = s.world.sent ++ [p] ∧ p.node = s.nodes ∧ p.payload.seq = 1) := by
  rcases insert_cases s w env with ⟨u, hu, hview, -⟩ | ⟨u, hu, -, v, hv, rfl⟩ <;> rw [hu] at ht <;> cases ht
  · exact Or.inl ⟨congrArg View.hosts hview, congrArg View.world hview⟩
  · have hview : v.view = s.view := start_view (by rw [hv]; rfl)
    have hhosts : v.hosts = s.hosts := congrArg View.hosts hview
    have hworld : v.world = s.world := congrArg View.world hview
    have hnodes : v.nodes = s.nodes := congrArg View.nodes hview
    have hid : v.id = s.id := start_id (by rw [hv]; rfl)
    have hfresh : ∀ x ∈ v.hosts, x.node ≠ v.nodes := fun x hx => Nat.ne_of_lt ((hview ▸ hs).lt x hx)
    rw [emplaceBack_eq (by exact hfresh)]
    refine Or.inr ⟨fun x hx => ?_, ?_⟩
    · rcases List.mem_append.mp hx with hx | hx
      · have hold := (afterFirst_hosts _ w env).subset hx
        exact Or.inl (hhosts ▸ hold)
      · refine Or.inr ?_
        rw [List.mem_singleton.mp hx]
        simp only [Controller.newHost, World.interval_setBusy, hworld, hnodes, hid]
    · rw [← hworld, ← hnodes]
      exact (send_packets _ _ _ _ _).imp_right fun hsent => ⟨_, hsent, rfl, rfl⟩

theorem insert_sparing {w : WorkerId} {env : InsertEnv} (hk : Known s) (hs : Sparing s)
    (hclock : env.time ≤ env.send.time) (ht : (s.insert w env).state? = some t) : Sparing t := by
  have hmoves := insert_moves hs.numbered ht
  have hn := hs.numbered.moves hmoves
  have hi := hmoves.interval
  have hnone : s.numbers s.nodes = [] := by
    rw [Controller.numbers, Controller.probes, List.filter_eq_nil_iff.mpr fun p hp => ?_, List.map_nil]
    obtain ⟨x, hx⟩ := hk.sent p hp
    have hlt : p.node < s.nodes := hk.logged _ hx
    simpa using hlt.ne
  rcases insert_sends hs.numbered ht with ⟨hhosts, hworld⟩ | ⟨hhosts, hsent⟩
  · exact hs.quiet hn hi (fun x hx => hhosts ▸ hx) (congrArg World.sent hworld)
  -- Only the new node has new packets, and it has at most one.
  have hnumbers : ∀ n, t.numbers n = s.numbers n ∨ n = s.nodes ∧ t.numbers n = [1] := fun n => by
    rcases hsent with hsent | ⟨p, hsent, hnode, hseq⟩
    · exact Or.inl (numbers_of_sent hsent n)
    · rw [numbers_of_packet hsent, hnode, hseq]
      split_ifs with heq
      · exact Or.inr ⟨heq.symm, by rw [← heq, hnone]; rfl⟩
      · exact Or.inl (List.append_nil _)
  refine ⟨hn, fun v => (hs.intervals v).trans_eq (hi v).symm, fun x hx => ?_, fun n => ?_⟩
  · rcases hhosts x hx with hx | rfl
    · have hne : x.node ≠ s.nodes := Nat.ne_of_lt (hs.numbered.lt x hx)
      have hpaced := hs.paced x hx
      refine ⟨hpaced.due, ?_⟩
      rw [(hnumbers x.node).resolve_right fun hnew => hne hnew.1]
      exact hpaced.counted
    · refine ⟨Int.add_le_add_right hclock _, Or.inl ⟨rfl, ?_⟩⟩
      change (t.numbers s.nodes).Sublist [1]
      rcases hnumbers s.nodes with hold | ⟨-, hnew⟩
      · rw [hold, hnone]
        exact List.nil_sublist _
      · rw [hnew]
  · rcases hnumbers n with hold | ⟨-, hnew⟩
    · rw [hold]
      exact hs.brief n
    · rw [hnew]
      exact List.singleton_sublist.mpr List.mem_cons_self

/-! ### Runs -/

theorem step_sparing {i : Input} (hk : Known s) (hs : Sparing s) (hi : i.Steady) (ht : s.step i = some t) :
    Sparing t := by
  have hn := step_numbered hs.numbered ht
  have hinterval := (step_moves hs.numbered ht).interval
  cases i with
  | insert w env => exact insert_sparing hk hs hi ht
  | remove w =>
    cases ht
    exact hs.quiet hn hinterval (remove_packets s w).1 (remove_packets s w).2
  | onTimer =>
    cases ht
    refine hs.quiet hn hinterval ?_ ?_ <;> split
    · exact List.Subset.refl _
    · exact List.Subset.refl _
    · rfl
    · rfl
  | task env =>
    change (if s.queued = 0 then some s else _) = some t at ht
    split at ht
    · cases ht
      exact hs
    · have hsame : Sparing { s with queued := s.queued - 1 } :=
        ⟨hs.numbered, hs.intervals, fun h hh => ⟨(hs.paced h hh).due, (hs.paced h hh).counted⟩, hs.brief⟩
      exact timerTask_sparing hsame hi ht
  | handleEvent oninput recv now =>
    cases ht
    exact hs.quiet hn hinterval (handleEvent_packets s oninput recv now).1 (handleEvent_packets s oninput recv now).2
  | address w addr =>
    cases ht
    exact hs.quiet hn hinterval (List.Subset.refl _) rfl

theorem sparing_init (pid : Nat) {workers : WorkerId → Worker} (hw : ∀ w, 1 ≤ (workers w).interval) :
    Sparing (init pid workers) where
  numbered := numbered_init pid workers
  intervals := hw
  paced := fun _ hh => by cases hh
  brief := fun _ => List.nil_sublist _

/-- If intervals are at least one second and the clock does not go back within a call, then in every run each check
    sends at most two packets, a first one with the number 1 and a second one with the number 2, whatever is sent for
    other hosts and whichever packets fail. --/
theorem brief_always (pid : Nat) (workers : WorkerId → Worker) (is : List Input)
    (hw : ∀ w, 1 ≤ (workers w).interval) (hi : ∀ i ∈ is, i.Steady) : Always step Brief (init pid workers) is := by
  have inv : Always step (fun s => Known s ∧ Sparing s) (init pid workers) is :=
    always_of_along (fun s i t hs hc ht => ⟨step_known hs.1 ht, step_sparing hs.1 hs.2 hc ht⟩)
      ⟨known_init pid workers, sparing_init pid hw⟩ (along_of_forall hi)
  exact inv.mono fun s hs => hs.2.brief

/-- The result at a check that sends its second packet at its deadline, and is over a second later. --/
theorem brief_second :
    let i : InsertEnv := { start := { socket := some 7 }, time := 10, send := { time := 10 } }
    let e : Int → Nat → TimerEnv := fun now _ => { now, send := { time := now } }
    ∃ s, exec step (init 1 fun _ => { addr := .inet 1 }) [.insert 0 i, .onTimer, .task (e 11)] = some s ∧
      s.numbers 0 = [1, 2] ∧
      Always step Brief (init 1 fun _ => { addr := .inet 1 })
        [.insert 0 i, .onTimer, .task (e 11), .onTimer, .task (e 12)] := by
  intro i e
  refine ⟨_, rfl, rfl, brief_always 1 _ _ (fun _ => le_refl _) ?_⟩
  simp [i, e, Input.Steady]

end UdjatNetwork.Icmp
