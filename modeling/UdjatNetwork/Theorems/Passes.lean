import UdjatNetwork.Theorems.TimerPass

/-! # Callbacks of the timer that take effect

The pass of the timer reads the successor of a host before it visits the host. When a packet of the host fails with
`ENETUNREACH`, and the hosts that are completed by that include the successor, the pass goes on from a node that is not
there any more. Every other step has a defined effect. -/

namespace UdjatNetwork.Icmp
open Pass Machine Controller

variable {s t u : Controller} {h : Host} {env : Nat → TimerEnv} {i : Input} {done rest old : List Host}

/-- The step has an effect: it returns or throws. -/
def Controller.Defined (s : Controller) (i : Input) : Prop := ∃ t, s.step i = some t

/-- The nodes of the hosts that a packet completes when it fails with `ENETUNREACH`: those with its identifier, up to
    one whose worker throws. -/
def completed (id : UInt16) (throws : Nat → Bool) (hosts : List Host) : List Nat :=
  ((hosts.filter (·.id = id)).map (·.node)).takeWhile fun n => !throws n

/-- The hosts in other nodes. -/
def outside (gone : List Nat) (hosts : List Host) : List Host := hosts.filter fun x => decide (x.node ∉ gone)

/-- The pass gets from each of the hosts `rest` to the next one, `done` being those that it kept: when a packet of a
    host that it visits fails with `ENETUNREACH`, the host behind it in the list is not completed by that. -/
def Controller.Onward (env : Nat → TimerEnv) (s : Controller) : List Host → List Host → Prop
  | _, [] => True
  | done, h :: rest =>
    if h.Expired env then (env h.node).send.throws h.node = true ∨ s.Onward env done rest
    else if s.Unreachable env h then
      let gone := completed h.id (env h.node).send.throws (done ++ h :: rest)
      (∀ x ∈ rest.head?, x.node ∉ gone) ∧ s.Onward env (outside gone (done ++ [h])) (outside gone rest)
    else s.Onward env (done ++ [h]) rest
termination_by _ rest => rest.length
decreasing_by
  · exact Nat.lt_succ_self _
  · exact Nat.lt_succ_of_le (List.length_filter_le _ _)
  · exact Nat.lt_succ_self _

/-- No packet that fails in a callback of the timer completes the host that the callback goes on to. -/
def Controller.KeepsNext (s : Controller) : Input → Prop
  | .task env => s.queued ≠ 0 → s.Onward env [] s.hosts
  | _ => True

/-! ### A visit -/

section Visit
variable {w : World} {v : Visit Host}

/-- The pass ends before it gets to the hosts behind this one. -/
def Host.Raises (env : Nat → TimerEnv) (h : Host) : Prop := h.Expired env ∧ (env h.node).send.throws h.node = true

theorem not_expired (hfail : u.Unreachable env h) : ¬ h.Expired env := not_lt.mpr hfail.1.1.1

/-- The host of the visit stays in the list, or leaves it, or its worker throws. -/
theorem Visited.verdict (hv : Visited env h u w v)
    (hset : u.Unreachable env h → (env h.node).send.throws h.node = false) :
    match v with
    | .keep _ => ¬ h.Expired env ∧ ¬ u.Unreachable env h
    | .drop => (h.Expired env ∧ ¬ h.Raises env) ∨ u.Unreachable env h
    | .raise => h.Raises env := by
  cases hv with
  | throwing hover hthrows => exact ⟨hover, hthrows⟩
  | expired hover hthrows => exact Or.inl ⟨hover, fun hraises => absurd hraises.2 (by simp [hthrows])⟩
  | silent hover hsend => exact ⟨hover, fun hfail => hsend hfail.1⟩
  | sent hsend hok => exact ⟨not_lt.mpr hsend.1.1, hok⟩
  | failed hfail hthrows => simp [hset hfail] at hthrows
  | gone hfail => exact Or.inr hfail

theorem Visited.kept {b : Host} (hv : Visited env h u w (.keep b)) : ∃ next packets, b = { h with next, packets } := by
  rcases hv.keep with rfl | rfl
  · exact ⟨_, _, rfl⟩
  · exact ⟨_, _, rfl⟩

theorem Visited.addr (hv : Visited env h s w v) (x : WorkerId) :
    (w.workers x).addr = (s.world.workers x).addr := by
  cases hv with
  | throwing | silent | sent | failed => rfl
  | expired | gone => exact World.addr_setBusy _ _ _ _

end Visit

/-- What decides about the packets of the hosts is the same. -/
structure SameReach (s u : Controller) : Prop where
  fd : u.fd = s.fd
  addr : ∀ v, (u.world.workers v).addr = (s.world.workers v).addr

theorem SameReach.sends (hu : SameReach s u) : u.Sends env h ↔ s.Sends env h := by
  unfold Controller.Sends Controller.Reaches
  rw [hu.fd, hu.addr]

theorem SameReach.unreachable (hu : SameReach s u) : u.Unreachable env h ↔ s.Unreachable env h := and_congr_left' hu.sends

theorem visit_sameReach (env : Nat → TimerEnv) (h : Host) (s : Controller) : SameReach s (visit env h s).1 :=
  ⟨visit_fd env h s, (visited env h s).addr⟩

theorem SameReach.trans (hu : SameReach s u) (ht : SameReach u t) : SameReach s t :=
  ⟨ht.fd.trans hu.fd, fun v => (ht.addr v).trans (hu.addr v)⟩

/-! ### A packet that fails -/

section Sweep
variable {payload : Payload} {throws : Nat → Bool} {id : UInt16}

theorem errorPred_eq (payload : Payload) (throws : Nat → Bool) (h : Host) (w : World) :
    errorPred ENETUNREACH payload throws h w =
      if payload.id = h.id then
        if throws h.node then (w.set h .networkUnreachable .empty, .raise)
        else ((w.set h .networkUnreachable .empty).setBusy h.worker false, .drop)
      else (w, .keep) := by
  unfold errorPred Host.onError
  by_cases hid : payload.id = h.id
  · cases throws h.node <;> simp [hid]
  · simp [hid]

theorem errorSweep_addr (code : Nat) (payload : Payload) (throws : Nat → Bool) (hosts : List Host) (w : World)
    (x : WorkerId) : ((sweep (errorPred code payload throws) hosts w).2.1.workers x).addr = (w.workers x).addr :=
  sweep_keeps _ (fun w => (w.workers x).addr) (fun h w w' v hp => by
    rcases errorPred_cases hp with ⟨-, rfl⟩ | ⟨-, -, -, rfl⟩ | ⟨-, -, rfl⟩
    · rfl
    · exact World.addr_setBusy _ _ _ _
    · rfl) hosts w

theorem completed_subset (id : UInt16) (throws : Nat → Bool) (hosts : List Host) :
    ∀ n ∈ completed id throws hosts, n ∈ hosts.map (·.node) := fun _ hn =>
  (List.filter_sublist.map _).subset ((List.takeWhile_sublist _).subset hn)

/-- What the error pass leaves of the list. -/
theorem errorSweep_hosts {l : List Host} (hn : (l.map (·.node)).Nodup) (w : World) :
    (sweep (errorPred ENETUNREACH payload throws) l w).1 =
      outside (completed payload.id throws l) l := by
  unfold outside
  induction l generalizing w with
  | nil => rfl
  | cons a l ih =>
    obtain ⟨ha, hl⟩ := List.nodup_cons.mp hn
    rw [sweep, errorPred_eq]
    by_cases hid : payload.id = a.id
    · cases ht : throws a.node with
      | true =>
        have hnone : completed payload.id throws (a :: l) = [] := by simp [completed, hid, ht]
        rw [if_pos hid, if_pos rfl, hnone]
        simp
      | false =>
        have hgone : completed payload.id throws (a :: l) = a.node :: completed payload.id throws l := by
          simp [completed, hid, ht]
        rw [if_pos hid, if_neg (by simp), hgone, List.filter_cons_of_neg (by simp)]
        refine (ih hl _).trans (List.filter_congr fun x hx => ?_)
        have hne : x.node ≠ a.node := fun he => ha (List.mem_map.mpr ⟨x, hx, he⟩)
        simp [hne]
    · have hsame : completed payload.id throws (a :: l) = completed payload.id throws l := by
        simp [completed, Ne.symm hid]
      have hkept : a.node ∉ completed payload.id throws l := fun hmem => ha (completed_subset _ _ _ _ hmem)
      rw [if_neg hid, hsame, List.filter_cons_of_pos (by simpa using hkept)]
      exact congrArg (a :: ·) (ih hl w)

theorem outside_append (gone : List Nat) (l l' : List Host) : outside gone (l ++ l') = outside gone l ++ outside gone l' :=
  List.filter_append _ _

theorem mem_outside {gone : List Nat} {l : List Host} {x : Host} : x ∈ outside gone l ↔ x ∈ l ∧ x.node ∉ gone := by
  simp [outside]

/-- What the error pass looks at. -/
def tags (hosts : List Host) : List (Nat × UInt16) := hosts.map fun h => (h.node, h.id)

theorem completed_congr {l l' : List Host} (hl : tags l = tags l') : completed id throws l = completed id throws l' := by
  have key : ∀ l, completed id throws l =
      (((tags l).filter fun k => decide (k.2 = id)).map Prod.fst).takeWhile fun n => !throws n := fun l => by
    rw [tags, List.filter_map, List.map_map]
    rfl
  rw [key, key, hl]

theorem tags_outside (gone : List Nat) (l : List Host) :
    tags (outside gone l) = (tags l).filter fun k => decide (k.1 ∉ gone) := by
  rw [tags, tags, List.filter_map]
  rfl

end Sweep

/-- The visit of a host whose packet fails, among the other hosts. -/
theorem timerPred_unreachable (hn : ((done ++ h :: rest).map (·.node)).Nodup) (hfail : u.Unreachable env h) :
    ∃ v, timerPred env h.node (u.withHosts (done ++ h :: rest)) = (v, .keep) ∧ v.fd = u.fd ∧ ∃ r,
      r = sweep (errorPred ENETUNREACH (u.probe h (env h.node).send).payload (env h.node).send.throws)
        (done ++ h.counted u (env h.node).send :: rest) (u.sentWorld h (env h.node).send) ∧
      v.hosts = r.1 ∧ v.world = r.2.1 := by
  obtain ⟨⟨⟨hnow, hnext⟩, hfd, a, haddr⟩, herrno⟩ := hfail
  have hstore := store_withHosts (s := u) hn ((env h.node).send.time + (u.world.workers h.worker).interval) (h.packets + 1)
  have hpred : timerPred env h.node (u.withHosts (done ++ h :: rest)) = _ := timerPred_eq (find?_node hn)
  rw [Controller.onTimer, if_neg (not_lt.mpr hnow), if_pos hnext] at hpred
  refine ⟨_, hpred, (send_frame _ _ _ _ _).1, _, rfl, ?_⟩
  unfold Controller.hostSend
  dsimp only [Controller.withHosts] at hstore ⊢
  rw [hstore, haddr, Controller.send, if_neg (by exact not_lt.mpr hfd), herrno]
  exact ⟨rfl, rfl⟩

/-- What that visit leaves: the hosts that the packet does not complete. -/
theorem visit_unreachable (hn : ((done ++ h :: rest).map (·.node)).Nodup) (hfail : u.Unreachable env h) {gone : List Nat}
    (hgone : gone = completed h.id (env h.node).send.throws (done ++ h :: rest)) :
    ∃ v, timerPred env h.node (u.withHosts (done ++ h :: rest)) = (v, .keep) ∧ SameReach u v ∧
      v.hosts = outside gone (done ++ [h.counted u (env h.node).send]) ++ outside gone rest := by
  obtain ⟨v, hpred, hfd, r, hr, hhosts, hworld⟩ := timerPred_unreachable hn hfail
  refine ⟨v, hpred, ⟨hfd, fun x => ?_⟩, ?_⟩
  · rw [hworld, hr, errorSweep_addr]
    rfl
  · have hnodes : ((done ++ h.counted u (env h.node).send :: rest).map (·.node)).Nodup := by
      simpa [Host.counted] using hn
    have hsame : tags (done ++ h.counted u (env h.node).send :: rest) = tags (done ++ h :: rest) := by
      simp [tags, Host.counted]
    have hcompleted : completed (u.probe h (env h.node).send).payload.id (env h.node).send.throws
        (done ++ h.counted u (env h.node).send :: rest) = gone := (completed_congr hsame).trans hgone.symm
    rw [hhosts, hr, errorSweep_hosts hnodes, hcompleted, ← outside_append, List.append_assoc, List.singleton_append]

/-! ### The pass -/

theorem timerPred_nodes {n : Nat} {v : Verdict} (hp : timerPred env n s = (t, v)) : ∀ m ∈ t.nodeList, m ∈ s.nodeList := by
  rcases timerPred_cases hp with ⟨-, rfl⟩ | ⟨h, -, -, ⟨-, rfl⟩ | ⟨-, -, rfl⟩ | ⟨-, rfl⟩⟩
  · exact fun _ hm => hm
  · exact fun _ hm => hm
  · exact fun _ hm => hm
  · intro m hm
    obtain ⟨x, hx, rfl⟩ := List.mem_map.mp hm
    have hstored := (send_hosts _ _ _ _).1.subset hx
    obtain ⟨y, hy, rfl⟩ := List.mem_map.mp hstored
    refine List.mem_map.mpr ⟨y, hy, ?_⟩
    split_ifs with he
    · exact he
    · rfl

theorem unlink_nodes (n : Nat) (s : Controller) : ∀ m ∈ (unlink n s).nodeList, m ∈ s.nodeList := fun _ hm =>
  (List.filter_sublist.map _).subset hm

/-- The node behind the visited one stays, if the host at the head of those ahead is not completed. -/
theorem ahead_iff {gone : List Nat} {l : List Host} (hv : t.hosts = outside gone l)
    (hrest : ∀ x ∈ rest, x ∈ l) (hs : ∀ x ∈ rest, x.node ∈ s.nodeList) :
    Ahead nodeList (rest.map Host.node) s t ↔ ∀ x ∈ rest.head?, x.node ∉ gone := by
  cases rest with
  | nil => simp [Ahead]
  | cons x rest =>
    have hfind : ((x :: rest).map Host.node).find? (· ∈ s.nodeList) = some x.node := by
      rw [List.map_cons, List.find?_cons_of_pos (by simpa using hs x List.mem_cons_self)]
    have hmem : x.node ∈ t.nodeList ↔ x.node ∉ gone := by
      rw [Controller.nodeList, hv]
      constructor
      · intro hx
        obtain ⟨y, hy, he⟩ := List.mem_map.mp hx
        exact he ▸ (mem_outside.mp hy).2
      · intro hx
        exact List.mem_map.mpr ⟨x, mem_outside.mpr ⟨hrest x List.mem_cons_self, hx⟩, rfl⟩
    unfold Ahead
    rw [hfind]
    simpa using hmem

/-- The visit of a host whose packet, if it has one, does not fail. -/
theorem visit_reachable (hn : ((done ++ h :: rest).map (·.node)).Nodup) (hok : ¬ u.Unreachable env h) :
    removeIf nodeList unlink (timerPred env) ((h :: rest).map Host.node) (u.withHosts (done ++ h :: rest)) =
      match visit env h u with
      | (v, .keep b) => removeIf nodeList unlink (timerPred env) (rest.map Host.node) (v.withHosts (done ++ b :: rest))
      | (v, .drop) => removeIf nodeList unlink (timerPred env) (rest.map Host.node) (v.withHosts (done ++ rest))
      | (v, .raise) => .threw (v.withHosts (done ++ h :: rest)) := by
  have hnodes : ∀ l (w : Controller), nodeList (w.withHosts l) = l.map Host.node := fun _ _ => rfl
  rw [removeIf_local Host.node withHosts (visit env) hnodes (visit_local hn fun hfail => absurd hfail hok)]
  rcases visit env h u with ⟨v, b | _ | _⟩ <;> rfl

/-- The run lemma, along the condition: the pass from a host on is defined, if and only if it gets from each host to the
    next one. -/
theorem pass_defined_iff (hu : SameReach s u) (hn : ((done ++ rest).map (·.node)).Nodup) (hold : tags old = tags done) :
    removeIf nodeList unlink (timerPred env) (rest.map Host.node) (u.withHosts (done ++ rest)) ≠ .undefined ↔
      s.Onward env old rest := by
  fun_induction Controller.Onward env s old rest generalizing u done with
  | case1 => simp [removeIf]
  | case2 old h rest hover ih =>
    have hok : ¬ u.Unreachable env h := fun hfail => not_expired hfail hover
    have hset : u.Unreachable env h → (env h.node).send.throws h.node = false := fun hfail => absurd hfail hok
    have hv := visited env h u
    have hreach := hu.trans (visit_sameReach env h u)
    rw [visit_reachable hn hok]
    rcases hvisit : visit env h u with ⟨v, b | _ | _⟩ <;> rw [hvisit] at hv hreach
    · exact absurd hover (hv.verdict hset).1
    · obtain ⟨-, hraises⟩ := (hv.verdict hset).resolve_right hok
      have hthrows : (env h.node).send.throws h.node ≠ true := fun he => hraises ⟨hover, he⟩
      rw [or_iff_right hthrows]
      exact ih hreach (nodup_map_middle hn).1 hold
    · exact iff_of_true (by simp) (Or.inl (hv.verdict hset).2)
  | case3 old h rest hover hfail gone =>
    rename_i ih
    have htags : tags (old ++ h :: rest) = tags (done ++ h :: rest) := by
      rw [tags, List.map_append, tags, List.map_append]
      exact congrArg (· ++ tags (h :: rest)) hold
    obtain ⟨v, hpred, hreach, hhosts⟩ := visit_unreachable hn (hu.unreachable.mpr hfail) (completed_congr htags)
    have hmem : ∀ x ∈ h :: rest, x.node ∈ nodeList (u.withHosts (done ++ h :: rest)) := fun x hx =>
      List.mem_map_of_mem (List.mem_append_right done hx)
    have hahead : Ahead nodeList (rest.map Host.node) (u.withHosts (done ++ h :: rest)) v ↔
        ∀ x ∈ rest.head?, x.node ∉ gone :=
      ahead_iff (l := done ++ [h.counted u (env h.node).send] ++ rest) (by rw [hhosts, ← outside_append])
        (fun x hx => List.mem_append_right _ hx) fun x hx => hmem x (List.mem_cons_of_mem h hx)
    rw [List.map_cons, removeIf, if_pos (hmem h List.mem_cons_self), hpred]
    dsimp only
    by_cases hnext : ∀ x ∈ rest.head?, x.node ∉ gone
    · -- The pass goes on with the hosts that the packet did not complete.
      have hleft : ∀ n ∈ rest.map Host.node, n ∈ v.nodeList → decide (n ∉ gone) = true := fun n _ hn => by
        rw [Controller.nodeList, hhosts, ← outside_append] at hn
        obtain ⟨x, hx, rfl⟩ := List.mem_map.mp hn
        exact decide_eq_true (mem_outside.mp hx).2
      have hv : v = v.withHosts (outside gone (done ++ [h.counted u (env h.node).send]) ++ outside gone rest) := by
        rw [← hhosts]
        rfl
      rw [if_pos (hahead.mpr hnext), and_iff_right hnext,
        removeIf_filter (fun _ _ _ _ hp => timerPred_nodes hp) unlink_nodes hleft, List.filter_map, hv]
      refine ih (hu.trans hreach) ?_ ?_
      · rw [← outside_append]
        refine (List.filter_sublist.map _).nodup ?_
        simpa [Host.counted] using hn
      · rw [tags_outside, tags_outside]
        have hcounted : tags (old ++ [h]) = tags (done ++ [h.counted u (env h.node).send]) := by
          simpa [tags, Host.counted] using hold
        rw [hcounted]
    · rw [if_neg fun ha => hnext (hahead.mp ha)]
      exact iff_of_false (by simp) fun hall => hnext hall.1
  | case4 old h rest hover hfail ih =>
    have hok : ¬ u.Unreachable env h := fun hu' => hfail (hu.unreachable.mp hu')
    have hset : u.Unreachable env h → (env h.node).send.throws h.node = false := fun hfail => absurd hfail hok
    have hv := visited env h u
    have hreach := hu.trans (visit_sameReach env h u)
    rw [visit_reachable hn hok]
    rcases hvisit : visit env h u with ⟨v, b | _ | _⟩ <;> rw [hvisit] at hv hreach
    · obtain ⟨next, packets, rfl⟩ := hv.kept
      have hnodup : ((done ++ [{ h with next, packets }] ++ rest).map Host.node).Nodup := by simpa using hn
      have hnext := ih hreach hnodup (by simpa [tags] using hold)
      rwa [List.append_assoc, List.singleton_append] at hnext
    · rcases hv.verdict hset with ⟨hexpired, -⟩ | hfail
      · exact absurd hexpired hover
      · exact absurd hfail hok
    · exact absurd (hv.verdict hset).1 hover

/-! ### Steps -/

theorem task_defined_iff (hs : Numbered s.view) (env : Nat → TimerEnv) : s.Defined (.task env) ↔ s.KeepsNext (.task env) := by
  by_cases hq : s.queued = 0
  · exact iff_of_true ⟨s, if_pos hq⟩ fun hne => absurd hq hne
  · let s₀ : Controller := { s with queued := s.queued - 1 }
    have hstep : s.step (.task env) = (s₀.timerTask env).state? := if_neg hq
    have hreach : SameReach s s₀ := ⟨rfl, fun _ => rfl⟩
    have hnodup : (([] ++ s.hosts).map Host.node).Nodup := hs.nodup
    have hpass : removeIf nodeList unlink (timerPred env) s₀.nodeList s₀ ≠ .undefined ↔ s.Onward env [] s.hosts :=
      pass_defined_iff hreach hnodup rfl
    have hnext : s.KeepsNext (.task env) ↔ s.Onward env [] s.hosts := imp_iff_right hq
    rw [Controller.Defined, hstep, Controller.timerTask, hnext, ← hpass]
    rcases removeIf nodeList unlink (timerPred env) s₀.nodeList s₀ with v | v | _ <;> simp

/-- The step lemma: a step is undefined only for a callback of the timer that goes on from a node that is gone. -/
theorem defined_iff (hs : Numbered s.view) (i : Input) : s.Defined i ↔ s.KeepsNext i := by
  cases i with
  | insert w e =>
    refine iff_of_true ?_ trivial
    obtain ⟨t, ht, -⟩ | ⟨t, ht, -⟩ := insert_cases s w e <;> exact ⟨t, by rw [Controller.step, ht]; rfl⟩
  | task env => exact task_defined_iff hs env
  | remove | onTimer | handleEvent | address => exact iff_of_true ⟨_, rfl⟩ trivial

theorem always_numbered (pid : Nat) (workers : WorkerId → Worker) (is : List Input) :
    Always step (fun s => Numbered s.view) (init pid workers) is :=
  always_of_step (fun _ _ _ hs ht => step_numbered hs ht) (numbered_init pid workers) is

/-- The steps of a run are all defined, if and only if its callbacks of the timer get from each host to the next one. -/
theorem along_defined_iff (pid : Nat) (workers : WorkerId → Worker) (is : List Input) :
    Along step Defined (init pid workers) is ↔ Along step KeepsNext (init pid workers) is := by
  have hnumbered := (always_numbered pid workers is).along
  constructor
  · exact fun h => (hnumbered.and h).mono fun s i hsi => (defined_iff hsi.1 i).mp hsi.2
  · exact fun h => (hnumbered.and h).mono fun s i hsi => (defined_iff hsi.1 i).mpr hsi.2

end UdjatNetwork.Icmp
