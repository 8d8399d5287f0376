import UdjatNetwork.Theorems.Spares

/-! # When a host times out

A host is watched from its insertion on, at the ticks of the timer. Its deadline is one interval after the insertion,
and not the timeout of its worker. -/

namespace UdjatNetwork.Icmp
open Pass Machine Controller

variable {s t : Controller} {h : Host} {env : Nat → TimerEnv}

def Controller.Pending (s : Controller) (n : Nat) : Prop := ∃ h ∈ s.hosts, h.node = n

/-- A host by its node, with its worker and the timers of that, and the time of its insertion. -/
structure Watch where
  node : Nat
  worker : WorkerId
  timeout : Int
  interval : Int
  start : Int

/-- The host that the next insertion of the worker brings. -/
def Controller.watch (s : Controller) (w : WorkerId) (start : Int) : Watch where
  node := s.nodes
  worker := w
  timeout := (s.world.workers w).timeout
  interval := (s.world.workers w).interval
  start := start

/-- The time of a tick, when the input is one. -/
def Controller.tick? (s : Controller) : Input → Option Int
  | .task env => if s.queued = 0 then none else some (env 0).now
  | _ => none

/-- The host stays, and gets and sends nothing. -/
def Idle (n : Nat) (s t : Controller) : Prop := t.Pending n ∧ t.results n = s.results n ∧ t.probes n = s.probes n

/-- What should happen to the host at a tick, the time of its last packet known: a timeout, when the time of the
    worker is over, and else a packet, when an interval or more has passed. -/
def AtTick (o : Watch) (last now : Int) (s t : Controller) : Prop :=
  if now > o.start + o.timeout then t.results o.node = s.results o.node ++ [.set o.node o.worker .timeout .empty]
  else if now ≥ last + o.interval then
    t.Pending o.node ∧ t.results o.node = s.results o.node ∧ ∃ p, t.probes o.node = s.probes o.node ++ [p]
  else Idle o.node s t

/-- What should happen to the host along a run, up to the timeout. -/
def Follows (o : Watch) : Int → Controller → List Input → Prop
  | _, _, [] => True
  | last, s, i :: is => ∃ t, s.step i = some t ∧
    match s.tick? i with
    | none => Idle o.node s t ∧ Follows o last t is
    | some now => AtTick o last now s t ∧
      (now ≤ o.start + o.timeout → Follows o (if now ≥ last + o.interval then now else last) t is)

/-- No packet matches the host, every packet is sent, its worker is not removed, and a tick has one time. -/
def Undisturbed (o : Watch) (s : Controller) : Input → Prop
  | .insert _ env => env.send.errno = none
  | .remove v => v ≠ o.worker
  | .task env => s.queued ≠ 0 → (∀ k, (env k).now = (env 0).now ∧ (env k).send.time = (env 0).now) ∧
      (∀ k, (env k).send.errno = none) ∧ 0 ≤ s.fd ∧ ∃ a, (s.world.workers o.worker).addr = .inet a
  | .handleEvent true recv _ => ∀ packet addr, accepted s.pid recv = some (packet, addr) →
      ∀ h ∈ s.hosts, h.node = o.node → packet.payload.id ≠ h.id
  | _ => True

/-- A host before the one in the node times out in this pass, and its worker throws. -/
def Blocked (o : Watch) (s : Controller) (env : Nat → TimerEnv) : Prop :=
  ∃ x ∈ s.hosts.takeWhile (·.node ≠ o.node), (env x.node).now > x.timeout ∧ (env x.node).send.throws x.node = true

/-- At a tick without a result yet, the interval and the timeout since the insertion are over at the same time; or,
    if the pass does not get to the host, nothing is due. -/
def Timely (o : Watch) (s : Controller) : Input → Prop
  | .task env => s.queued ≠ 0 → s.results o.node = [] →
      (¬ Blocked o s env → ((env 0).now > o.start + o.interval ↔ (env 0).now > o.start + o.timeout)) ∧
      (Blocked o s env → (env 0).now ≤ o.start + o.timeout ∧ ∀ h ∈ s.hosts, h.node = o.node → (env 0).now < h.next)
  | _ => True

/-! ### Steps without a tick -/

/-- The host is pending without a result, its deadline one interval after its insertion, and its next packet one
    interval after its last one. -/
structure Watched (o : Watch) (last : Int) (s : Controller) : Prop where
  numbered : Numbered s.view
  host : ∃ h ∈ s.hosts, h.node = o.node ∧ h.worker = o.worker ∧ h.timeout = o.start + o.interval ∧ h.next = last + o.interval
  interval : (s.world.workers o.worker).interval = o.interval
  results : s.results o.node = []

variable {o : Watch} {last : Int} {i : Input}

/-- A step that keeps the host and its events and packets. -/
theorem Watched.idle (hs : Watched o last s) (ht : s.step i = some t)
    (hevents : t.world.log.filter (·.node = o.node) = s.world.log.filter (·.node = o.node))
    (hsent : t.probes o.node = s.probes o.node)
    (hinterval : (t.world.workers o.worker).interval = (s.world.workers o.worker).interval)
    (hhosts : ∀ h ∈ s.hosts, h.node = o.node → h ∈ t.hosts) : Idle o.node s t ∧ Watched o last t := by
  obtain ⟨h, hh, hnode, htimes⟩ := hs.host
  have hkept := hhosts h hh hnode
  have hresults : t.results o.node = s.results o.node := by rw [Controller.results, hevents, Controller.results]
  refine ⟨⟨⟨h, hkept, hnode⟩, hresults, hsent⟩, step_numbered hs.numbered ht, ⟨h, hkept, hnode, htimes⟩, ?_, ?_⟩
  · rw [hinterval, hs.interval]
  · rw [hresults, hs.results]

theorem Watched.idle_of_spares (hs : Watched o last s) (ht : s.step i = some t)
    (hspares : Spares o.node s.world t.world) (hhosts : ∀ h ∈ s.hosts, h.node = o.node → h ∈ t.hosts) :
    Idle o.node s t ∧ Watched o last t :=
  hs.idle ht hspares.events hspares.sent (hspares.interval _) hhosts

theorem idle_step (hs : Watched o last s) (hu : Undisturbed o s i) (htick : s.tick? i = none) :
    ∃ t, s.step i = some t ∧ Idle o.node s t ∧ Watched o last t := by
  obtain ⟨h, hh, hnode, hworker, -⟩ := hs.host
  have hlt : o.node < s.nodes := hnode ▸ hs.numbered.lt h hh
  have hunique : ∀ x ∈ s.hosts, x.node = o.node → x = h := fun x hx hxn =>
    hs.numbered.eq_of_node hx hh (hxn.trans hnode.symm)
  cases i with
  | insert v e =>
    obtain ⟨t, ht, hspares, hhosts⟩ := insert_spares (v := v) hs.numbered hlt hu
    exact ⟨t, ht, hs.idle_of_spares ht hspares fun x hx _ => hhosts x hx⟩
  | remove v =>
    obtain ⟨hspares, hkept⟩ := remove_spares hs.numbered hh (v := v) fun he => hu (he.trans hworker)
    rw [hnode] at hspares
    exact ⟨_, rfl, hs.idle_of_spares (i := .remove v) rfl hspares fun x hx hxn => hunique x hx hxn ▸ hkept⟩
  | onTimer =>
    refine ⟨_, rfl, hs.idle_of_spares (i := .onTimer) rfl ?_ fun x hx _ => ?_⟩ <;> split
    · exact .refl _ _
    · exact .refl _ _
    · exact hx
    · exact hx
  | task env =>
    have hq : s.queued = 0 := by
      by_contra hq
      simp [Controller.tick?, hq] at htick
    have ht : s.step (.task env) = some s := if_pos hq
    exact ⟨s, ht, hs.idle_of_spares ht (.refl _ _) fun x hx _ => hx⟩
  | handleEvent oninput recv now =>
    have hids : oninput = true → ∀ packet addr, accepted s.pid recv = some (packet, addr) →
        packet.payload.id ≠ h.id := fun hon packet addr hacc => by
      subst hon
      exact hu packet addr hacc h hh hnode
    obtain ⟨hspares, hkept⟩ := handleEvent_spares hs.numbered hh hids
    rw [hnode] at hspares
    exact ⟨_, rfl, hs.idle_of_spares (i := .handleEvent oninput recv now) rfl hspares
      fun x hx hxn => hunique x hx hxn ▸ hkept⟩
  | address v addr =>
    exact ⟨_, rfl, hs.idle (i := .address v addr) rfl rfl rfl (s.world.interval_setAddr _ v addr) fun x hx _ => hx⟩

/-! ### Ticks -/

/-- At a tick the pass is over before it gets to the host, or visits it. -/
theorem tick_cases (hs : Watched o last s) (hq : s.queued ≠ 0) (herrno : ∀ k, (env k).send.errno = none) :
    ∃ t h, s.step (.task env) = some t ∧ h ∈ s.hosts ∧ h.node = o.node ∧ h.worker = o.worker ∧
      h.timeout = o.start + o.interval ∧ h.next = last + o.interval ∧
      ((Blocked o s env ∧ Spares o.node s.world t.world ∧ h ∈ t.hosts) ∨
        (¬ Blocked o s env ∧ ∃ u : Controller, Spares o.node s.world u.world ∧ u.fd = s.fd ∧
          Spares o.node (visit env h u).1.world t.world ∧ ∀ b, (visit env h u).2 = .keep b → b ∈ t.hosts)) := by
  obtain ⟨h, hh, hnode, hworker, htimeout, hnext⟩ := hs.host
  obtain ⟨t, s₀, ht, hworld₀, hfd₀, hworld, hhosts⟩ := task_step ⟨hs.numbered.nodup, Or.inl herrno⟩ hq
  refine ⟨t, h, ht, hh, hnode, hworker, htimeout, hnext, ?_⟩
  obtain ⟨pre, post, he⟩ := List.append_of_mem hh
  have hnodup : (s.hosts.map (·.node)).Nodup := hs.numbered.nodup
  obtain ⟨hpre, hpost⟩ := node_ne_of_middle (he ▸ hnodup)
  rw [hnode] at hpre hpost
  have hblocked : Blocked o s env ↔ (visits (visit env) pre s₀).2.2 = true := by
    rw [visits_raise (visit env) (fun x _ w => visit_raise env x w)]
    have htake : s.hosts.takeWhile (fun x => decide (x.node ≠ o.node)) = pre := by
      rw [he, List.takeWhile_append_of_pos fun x hx => by simpa using hpre x hx]
      simp [hnode]
    unfold Blocked
    rw [htake]
  obtain ⟨hspares, hfd⟩ := visits_spares hpre s₀
  rw [hworld₀] at hspares
  rw [hworld, hhosts, he, visits_append, hblocked]
  by_cases hraised : (visits (visit env) pre s₀).2.2 = true
  · rw [if_pos hraised]
    exact Or.inl ⟨hraised, hspares, by simp⟩
  · rw [if_neg hraised]
    obtain ⟨hrest, hkept⟩ := visits_cons_spares (h := h) hpost (visits (visit env) pre s₀).2.1
    exact Or.inr ⟨hraised, _, hspares, hfd.trans hfd₀, hrest, fun b hb => List.mem_append_right _ (hkept b hb)⟩

theorem send_sent {node : Nat} {addr : Address} {payload : Payload} {e : SendEnv} (herrno : e.errno = none)
    (hfd : 0 ≤ s.fd) (haddr : ∃ a, addr = .inet a) :
    (s.send node addr payload e).world =
      { s.world with sent := s.world.sent ++ [{ node, seq := s.seq + 1, payload }] } := by
  obtain ⟨a, rfl⟩ := haddr
  unfold Controller.send
  rw [if_neg (not_lt.mpr hfd)]
  dsimp only
  rw [herrno]

/-- The visit of the host itself: a result, a packet, or nothing. -/
theorem visit_watched (u : Controller) (herrno : (env h.node).send.errno = none) (hfd : 0 ≤ u.fd)
    (haddr : ∃ a, (u.world.workers h.worker).addr = .inet a) :
    ((env h.node).now > h.timeout ∧ (visit env h u).1.world.log.filter (·.node = h.node) =
        u.world.log.filter (·.node = h.node) ++ [.set h.node h.worker .timeout .empty]) ∨
    ((env h.node).now ≤ h.timeout ∧ h.next ≤ (env h.node).now ∧
      (visit env h u).2 = .keep (h.counted u (env h.node).send) ∧
      ∃ p : Sent, p.node = h.node ∧ (visit env h u).1.world = { u.world with sent := u.world.sent ++ [p] }) ∨
    ((env h.node).now ≤ h.timeout ∧ (env h.node).now < h.next ∧ (visit env h u).2 = .keep h ∧
      (visit env h u).1.world = u.world) := by
  rcases visit_cases env h u with ⟨hnow, hvisit, -⟩ | ⟨hnow, -, hvisit⟩ | ⟨hnow, hnext, hvisit⟩ | ⟨hnow, hnext, hvisit⟩
  · refine Or.inl ⟨hnow, ?_⟩
    rw [hvisit]
    exact filter_node_append_eq rfl
  · refine Or.inl ⟨hnow, ?_⟩
    rw [hvisit]
    exact filter_node_append_eq rfl
  · refine Or.inr (Or.inl ⟨hnow, hnext, ?_⟩)
    have hhosts : ((u.withHosts [h]).hostSend h (env h.node).send).1.hosts = [h.counted u (env h.node).send] := by
      rw [hostSend_eq, send_hosts_of_none herrno]
      rfl
    rw [hvisit, hhosts]
    refine ⟨rfl, { node := h.node, seq := u.seq + 1, payload := { id := h.id, seq := h.packets + 1, time := getCurrentTime (env h.node).send.clock } }, rfl, ?_⟩
    rw [hostSend_eq]
    exact send_sent (s := u.withHosts [h.counted u (env h.node).send]) herrno hfd haddr
  · refine Or.inr (Or.inr ⟨hnow, hnext, ?_, ?_⟩) <;> rw [hvisit]
    rfl

theorem atTick_of_idle {now : Int} (hidle : Idle o.node s t) :
    AtTick o last now s t ↔ now ≤ o.start + o.timeout ∧ now < last + o.interval := by
  unfold AtTick
  split_ifs with htimeout hnext
  · refine iff_of_false (fun h => ?_) fun h => absurd h.1 (not_le.mpr htimeout)
    rw [hidle.2.1] at h
    simp at h
  · refine iff_of_false (fun h => ?_) fun h => absurd h.2 (not_lt.mpr hnext)
    obtain ⟨-, -, p, hp⟩ := h
    rw [hidle.2.2] at hp
    simp at hp
  · exact iff_of_true hidle ⟨not_lt.mp htimeout, not_le.mp hnext⟩

theorem atTick_of_timeout {now : Int}
    (hresults : t.results o.node = s.results o.node ++ [.set o.node o.worker .timeout .empty]) :
    AtTick o last now s t ↔ now > o.start + o.timeout := by
  have hne : t.results o.node ≠ s.results o.node := by
    rw [hresults]
    simp
  unfold AtTick
  split_ifs with htimeout hnext
  · exact iff_of_true hresults htimeout
  · exact iff_of_false (fun h => hne h.2.1) htimeout
  · exact iff_of_false (fun h => hne h.2.1) htimeout

theorem atTick_of_sent {now : Int} (hpending : t.Pending o.node) (hresults : t.results o.node = s.results o.node)
    (hprobes : ∃ p, t.probes o.node = s.probes o.node ++ [p]) (hnext : now ≥ last + o.interval) :
    AtTick o last now s t ↔ now ≤ o.start + o.timeout := by
  unfold AtTick
  split_ifs with htimeout
  · refine iff_of_false (fun h => ?_) (not_le.mpr htimeout)
    rw [hresults] at h
    simp at h
  · exact iff_of_true ⟨hpending, hresults, hprobes⟩ (not_lt.mp htimeout)

theorem timely_iff (env : Nat → TimerEnv) (hs : Watched o last s) (hq : s.queued ≠ 0) (hh : h ∈ s.hosts) (hnode : h.node = o.node)
    (hnext : h.next = last + o.interval) :
    Timely o s (.task env) ↔
      (¬ Blocked o s env → ((env 0).now > o.start + o.interval ↔ (env 0).now > o.start + o.timeout)) ∧
      (Blocked o s env → (env 0).now ≤ o.start + o.timeout ∧ (env 0).now < last + o.interval) := by
  have hunique : (∀ x ∈ s.hosts, x.node = o.node → (env 0).now < x.next) ↔ (env 0).now < last + o.interval := by
    constructor
    · exact fun hall => hnext ▸ hall h hh hnode
    · intro hlt x hx hxn
      rw [hs.numbered.eq_of_node hx hh (hxn.trans hnode.symm), hnext]
      exact hlt
  unfold Timely
  simp only [hs.results, hunique]
  exact ⟨fun h => h hq trivial, fun h _ _ => h⟩

section Between
variable {u w : World}

/-- A result of the host, between changes that spare it. -/
theorem results_between (hspares : Spares o.node s.world u)
    (hevents : w.log.filter (·.node = o.node) = u.log.filter (·.node = o.node) ++ [.set o.node o.worker .timeout .empty])
    (hrest : Spares o.node w t.world) :
    t.results o.node = s.results o.node ++ [.set o.node o.worker .timeout .empty] := by
  unfold Controller.results
  rw [hrest.events, hevents, hspares.events, List.filter_append]
  rfl

/-- A packet for the host, between changes that spare it. -/
theorem probes_between {p : Sent} (hspares : Spares o.node s.world u) (hp : p.node = o.node)
    (hrest : Spares o.node { u with sent := u.sent ++ [p] } t.world) :
    t.results o.node = s.results o.node ∧ t.probes o.node = s.probes o.node ++ [p] ∧
      ∀ v, (t.world.workers v).interval = (s.world.workers v).interval := by
  refine ⟨?_, ?_, fun v => (hrest.interval v).trans (hspares.interval v)⟩
  · unfold Controller.results
    rw [hrest.events]
    exact congrArg _ hspares.events
  · unfold Controller.probes
    rw [hrest.sent, ← hspares.sent]
    simp [hp]

end Between

/-- The step of a tick: the condition says when it does what it should, and the host is watched on until then. -/
theorem tick_step {now : Int} (hs : Watched o last s) (hu : Undisturbed o s i) (htick : s.tick? i = some now) :
    ∃ t, s.step i = some t ∧ (AtTick o last now s t ↔ Timely o s i) ∧
      (Timely o s i → now ≤ o.start + o.timeout →
        Watched o (if now ≥ last + o.interval then now else last) t) := by
  cases i with
  | task env =>
    have hq : s.queued ≠ 0 := fun hq => by simp [Controller.tick?, hq] at htick
    obtain rfl : (env 0).now = now := by simpa [Controller.tick?, hq] using htick
    obtain ⟨htime, herrno, hfd, haddr⟩ := hu hq
    obtain ⟨t, h, ht, hh, hnode, hworker, htimeout, hnext, hpass⟩ := tick_cases hs hq herrno
    refine ⟨t, ht, ?_⟩
    have htimely := timely_iff env hs hq hh hnode hnext
    have hunique : ∀ x ∈ s.hosts, x.node = o.node → x = h := fun x hx hxn =>
      hs.numbered.eq_of_node hx hh (hxn.trans hnode.symm)
    rcases hpass with ⟨hblocked, hspares, hkept⟩ | ⟨hblocked, u, hspares, hufd, hrest, hkept⟩
    · -- The pass ends before it gets to the host.
      obtain ⟨hidle, hwatched⟩ := hs.idle_of_spares ht hspares fun x hx hxn => hunique x hx hxn ▸ hkept
      replace htimely : Timely o s (.task env) ↔ (env 0).now ≤ o.start + o.timeout ∧ (env 0).now < last + o.interval := by
        simpa only [hblocked, not_true_eq_false, false_implies, true_implies, true_and] using htimely
      rw [atTick_of_idle hidle, htimely]
      refine ⟨Iff.rfl, fun h _ => ?_⟩
      rwa [if_neg (not_le.mpr h.2)]
    · replace htimely : Timely o s (.task env) ↔
          ((env 0).now > o.start + o.interval ↔ (env 0).now > o.start + o.timeout) := by
        simpa only [hblocked, not_false_eq_true, false_implies, true_implies, and_true] using htimely
      obtain ⟨hnow, hevents⟩ | ⟨hnow, hdue, hvisit, p, hp, hworld⟩ | ⟨hnow, hdue, hvisit, hworld⟩ :=
        visit_watched (h := h) u (herrno h.node) (hufd ▸ hfd) (by rw [hworker, hspares.addr]; exact haddr)
      · -- The host times out.
        rw [hnode] at hevents
        rw [hworker] at hevents
        have hresults := results_between hspares hevents hrest
        have hdeadline : (env 0).now > o.start + o.interval := by
          rw [← htimeout, ← (htime h.node).1]
          exact hnow
        rw [atTick_of_timeout hresults, htimely, iff_true_left hdeadline]
        exact ⟨Iff.rfl, fun h hle => absurd h (not_lt.mpr hle)⟩
      · -- The host sends.
        rw [(htime h.node).1, htimeout] at hnow
        rw [(htime h.node).1, hnext] at hdue
        have hkeep : h.counted u (env h.node).send ∈ t.hosts := hkept _ hvisit
        rw [hworld] at hrest
        obtain ⟨hresults, hprobes, hinterval⟩ := probes_between hspares (hp.trans hnode) hrest
        rw [atTick_of_sent ⟨_, hkeep, hnode⟩ hresults ⟨p, hprobes⟩ hdue, htimely, iff_false_left (not_lt.mpr hnow), if_pos hdue]
        refine ⟨not_lt.symm, fun _ _ =>
          ⟨step_numbered hs.numbered ht, ⟨_, hkeep, hnode, hworker, htimeout, ?_⟩, ?_, ?_⟩⟩
        · change (env h.node).send.time + (u.world.workers h.worker).interval = _
          rw [(htime h.node).2, hspares.interval, hworker, hs.interval]
        · rw [hinterval, hs.interval]
        · rw [hresults, hs.results]
      · -- Nothing is due.
        rw [(htime h.node).1, htimeout] at hnow
        rw [(htime h.node).1, hnext] at hdue
        rw [hworld] at hrest
        obtain ⟨hidle, hwatched⟩ := hs.idle_of_spares ht (hspares.trans hrest) fun x hx hxn =>
          hunique x hx hxn ▸ hkept h hvisit
        rw [atTick_of_idle hidle, htimely, iff_false_left (not_lt.mpr hnow), if_neg (not_le.mpr hdue), and_iff_left hdue]
        exact ⟨not_lt.symm, fun _ _ => hwatched⟩
  | _ => cases htick

/-! ### Runs -/

theorem timely_of_idle (htick : s.tick? i = none) : Timely o s i := by
  cases i with
  | task env =>
    intro hq
    simp [Controller.tick?, hq] at htick
  | _ => trivial

/-- With a result nothing is asked any more. -/
theorem along_of_result (hs : Numbered s.view) (hresult : s.results o.node ≠ []) (is : List Input) :
    Along step (Timely o) s is := by
  induction is generalizing s with
  | nil => trivial
  | cons i is ih =>
    refine ⟨?_, fun t ht => ih (step_numbered hs ht) fun hnone => hresult ?_⟩
    · cases i with
      | task env => exact fun _ hnone => absurd hnone hresult
      | _ => trivial
    · have hlog : s.world.log <+: t.world.log := (step_moves hs ht).log_grows
      have hprefix : s.results o.node <+: t.results o.node := (hlog.filter _).filter _
      rw [hnone] at hprefix
      exact List.prefix_nil.mp hprefix

theorem follows_iff {is : List Input} (hs : Watched o last s) (hu : Along step (Undisturbed o) s is) :
    Follows o last s is ↔ Along step (Timely o) s is := by
  induction is generalizing s last with
  | nil => exact Iff.rfl
  | cons i is ih =>
    obtain ⟨hi, his⟩ := hu
    cases htick : s.tick? i with
    | none =>
      obtain ⟨t, ht, hidle, hwatched⟩ := idle_step hs hi htick
      have hfollows : Follows o last s (i :: is) ↔ Follows o last t is := by
        rw [Follows]
        simp [ht, htick, hidle]
      have halong : Along step (Timely o) s (i :: is) ↔ Along step (Timely o) t is := by
        simp [Along, ht, timely_of_idle htick]
      rw [hfollows, halong]
      exact ih hwatched (his t ht)
    | some now =>
      obtain ⟨t, ht, htimely, hwatched⟩ := tick_step hs hi htick
      have hfollows : Follows o last s (i :: is) ↔ AtTick o last now s t ∧ (now ≤ o.start + o.timeout →
          Follows o (if now ≥ last + o.interval then now else last) t is) := by
        rw [Follows]
        simp [ht, htick]
      have halong : Along step (Timely o) s (i :: is) ↔ Timely o s i ∧ Along step (Timely o) t is := by
        simp [Along, ht]
      rw [hfollows, halong, htimely]
      refine and_congr_right fun hi => ?_
      by_cases hnow : now ≤ o.start + o.timeout
      · rw [← ih (hwatched hi hnow) (his t ht)]
        exact forall_prop_of_true hnow
      · -- The host has its result.
        refine iff_of_true (fun hle => absurd hle hnow) (along_of_result (step_numbered hs.numbered ht) ?_ is)
        have hat := htimely.mpr hi
        unfold AtTick at hat
        rw [if_pos (not_le.mp hnow)] at hat
        simp [hat]

theorem afterFirst_world {w : WorkerId} {e : InsertEnv} (herrno : e.send.errno = none) :
    ∃ sent, (s.afterFirst w e).world = { s.world.record (.inserted s.nodes w) with sent } :=
  send_world_of_none herrno

/-- The constructor gives the host its deadline from the interval of the worker. -/
theorem watched_insert {w : WorkerId} {e : InsertEnv} (hs : Numbered s.view) (hlogged : Logged s.view)
    (ht : s.insert w e = .ok t) (htime : e.send.time = e.time) (herrno : e.send.errno = none) :
    Watched (s.watch w e.time) e.time t := by
  have hstep : s.step (.insert w e) = some t := by
    rw [Controller.step, ht]
    rfl
  rcases insert_cases s w e with ⟨u, hu, -⟩ | ⟨u, hu, -, v, hv, rfl⟩
  · rw [hu] at ht
    cases ht
  · have hview : v.view = s.view := start_view (by rw [hv]; rfl)
    have hworld : v.world = s.world := congrArg View.world hview
    have hnodes : v.nodes = s.nodes := congrArg View.nodes hview
    have hhosts : v.hosts = s.hosts := congrArg View.hosts hview
    have hfresh : ∀ x ∈ v.hosts, x.node ≠ v.nodes := by
      rw [hhosts, hnodes]
      exact fun x hx => Nat.ne_of_lt (hs.lt x hx)
    rw [hu] at ht
    cases ht
    refine ⟨step_numbered hs hstep, ?_, ?_, ?_⟩ <;> rw [emplaceBack_eq (by exact hfresh)]
    · refine ⟨_, List.mem_append_right _ (List.mem_singleton_self _), hnodes, rfl, ?_, ?_⟩
      · change e.time + ((v.world.setBusy w true).workers w).interval = _
        rw [World.interval_setBusy, hworld]
        rfl
      · change e.send.time + ((v.world.setBusy w true).workers w).interval = _
        rw [World.interval_setBusy, hworld, htime]
        rfl
    · obtain ⟨sent, hsent⟩ := afterFirst_world (s := { v with world := v.world.setBusy w true }) (w := w) herrno
      dsimp only
      rw [hsent]
      change ((v.world.setBusy w true).workers w).interval = _
      rw [World.interval_setBusy, hworld]
      rfl
    · obtain ⟨sent, hsent⟩ := afterFirst_world (s := { v with world := v.world.setBusy w true }) (w := w) herrno
      have hnone : v.world.log.filter (·.node = s.nodes) = [] := by
        rw [hworld, List.filter_eq_nil_iff]
        intro x hx
        have hlt : x.node < s.nodes := hlogged x hx
        simpa using Nat.ne_of_lt hlt
      unfold Controller.results
      dsimp only
      rw [hsent]
      change ((v.world.log ++ [Event.inserted v.nodes w]).filter (·.node = s.nodes)).filter (·.isSet) = []
      rw [List.filter_append, hnone, List.nil_append, List.filter_filter]
      rfl

/-- A host that is inserted in any state reached, and disturbed by nothing, times out at the first tick after the
    timeout of its worker, and sends when the interval has passed since its last packet until then, if and only if
    at each tick without a result yet the interval and the timeout since the insertion are over at the same time
    (or nothing is due, when the exception of another worker ends the pass before it gets to the host). --/
theorem times_out_iff {pid : Nat} {workers : WorkerId → Worker} {before is : List Input} {w : WorkerId}
    {e : InsertEnv} (hs : exec step (init pid workers) before = some s) (ht : s.insert w e = .ok t)
    (htime : e.send.time = e.time) (herrno : e.send.errno = none)
    (hu : Along step (Undisturbed (s.watch w e.time)) t is) :
    Follows (s.watch w e.time) e.time t is ↔ Along step (Timely (s.watch w e.time)) t is := by
  have hreached : Numbered s.view ∧ Logged s.view :=
    exec_induct (I := fun _ s => Numbered s.view ∧ Logged s.view)
      ⟨numbered_init pid workers, fun _ hx => by cases hx⟩
      (fun _ s i t hI hst => ⟨step_numbered hI.1 hst, hI.2.moves hI.1 (step_moves hI.1 hst)⟩) hs
  exact follows_iff (watched_insert hreached.1 hreached.2 ht htime herrno) hu

/-- Two seconds after its insertion, at its only tick, the host of a worker with five seconds times out. --/
theorem times_out_early :
    ¬ ∀ (pid : Nat) (workers : WorkerId → Worker) (before is : List Input) (s t : Controller) (w : WorkerId)
      (e : InsertEnv), exec step (init pid workers) before = some s → s.insert w e = .ok t → e.send.time = e.time →
      e.send.errno = none → Along step (Undisturbed (s.watch w e.time)) t is →
      Follows (s.watch w e.time) e.time t is := by
  intro h
  let s := init 1 fun _ => { addr := .inet 0x0100007F, timeout := 5, interval := 1 }
  let e : InsertEnv := { start := { socket := some 7 } }
  let tick : Input := .task fun _ => { now := 2, send := { time := 2 } }
  obtain ⟨t, ht⟩ : ∃ t, s.insert 0 e = .ok t := ⟨_, rfl⟩
  have hinsert : step s (.insert 0 e) = some t := by
    rw [Controller.step, ht]
    rfl
  have hnone : (exec step s [.insert 0 e]).map (·.results 0) = some [] := by decide
  have hsocket : (exec step s [.insert 0 e, .onTimer]).map (fun t => (t.tick? tick, t.fd, (t.world.workers 0).addr)) =
      some (some 2, 7, .inet 0x0100007F) := by decide
  have hresult : (exec step s [.insert 0 e, .onTimer, tick]).map (·.results 0) = some [.set 0 0 .timeout .empty] := by
    decide
  simp only [exec, hinsert, Option.bind_some, Option.map_some, Option.some.injEq] at hnone hsocket hresult
  have hundisturbed : Along step (Undisturbed (s.watch 0 0)) t [.onTimer, tick] := by
    refine ⟨trivial, fun t₁ ht₁ => ⟨fun _ => ?_, fun _ _ => trivial⟩⟩
    simp only [ht₁, Option.bind_some, Option.map_some, Option.some.injEq, Prod.mk.injEq] at hsocket
    exact ⟨fun _ => ⟨rfl, rfl⟩, fun _ => rfl, by rw [hsocket.2.1]; decide, _, hsocket.2.2⟩
  obtain ⟨t₁, ht₁, hidle, t₂, ht₂, hat⟩ := h 1 _ [] [.onTimer, tick] s t 0 e rfl ht rfl rfl hundisturbed
  simp only [ht₁, ht₂, Option.bind_some, Option.map_some, Option.some.injEq, Prod.mk.injEq] at hsocket hresult
  rw [hsocket.1] at hat
  -- The interval has passed and the timeout has not, so a packet is due, and no result.
  obtain ⟨-, hresults, -⟩ : _ ∧ t₂.results 0 = t₁.results 0 ∧ _ := hat.1
  rw [hresult] at hresults
  cases hresults.trans (hidle.2.1.trans hnone)

/-- The host of such a worker, with ticks at one and at six seconds. --/
theorem times_out_in_time :
    let s := init 1 fun _ => { addr := .inet 0x0100007F, timeout := 5, interval := 1 }
    let e : InsertEnv := { start := { socket := some 7 } }
    let tick (now : Int) : Input := .task fun _ => { now, send := { time := now } }
    ∃ t, s.insert 0 e = .ok t ∧ Follows (s.watch 0 0) 0 t [.onTimer, tick 1, .onTimer, tick 6] := by
  intro s e tick
  obtain ⟨t, ht⟩ : ∃ t, s.insert 0 e = .ok t := ⟨_, rfl⟩
  have hinsert : step s (.insert 0 e) = some t := by
    rw [Controller.step, ht]
    rfl
  have hfirst : (exec step s [.insert 0 e, .onTimer]).map (fun t => (t.fd, (t.world.workers 0).addr)) =
      some (7, .inet 0x0100007F) := by decide
  have hsecond : (exec step s [.insert 0 e, .onTimer, tick 1, .onTimer]).map
      (fun t => (t.fd, (t.world.workers 0).addr)) = some (7, .inet 0x0100007F) := by decide
  simp only [exec, hinsert, Option.bind_some] at hfirst hsecond
  have hundisturbed : ∀ {u : Controller} {now : Int},
      (some u).map (fun t => (t.fd, (t.world.workers 0).addr)) = some (7, .inet 0x0100007F) →
      Undisturbed (s.watch 0 0) u (tick now) := fun hu _ => by
    obtain ⟨hfd, haddr⟩ := Prod.mk.inj (Option.some.inj hu)
    exact ⟨fun _ => ⟨rfl, rfl⟩, fun _ => rfl, by rw [hfd]; decide, _, haddr⟩
  have hunblocked : ∀ {u : Controller} {now : Int},
      ¬ Blocked (s.watch 0 0) u fun _ => { now, send := { time := now } } := by
    rintro u now ⟨x, -, -, hthrows⟩
    cases hthrows
  have hreached : exec step (init 1 fun _ => { addr := .inet 0x0100007F, timeout := 5, interval := 1 }) [] = some s := rfl
  refine ⟨t, ht, (times_out_iff hreached ht rfl rfl ?_).mpr ?_⟩
  · refine ⟨trivial, fun t₁ ht₁ => ?_⟩
    simp only [ht₁, Option.bind_some] at hfirst hsecond
    refine ⟨hundisturbed hfirst, fun t₂ ht₂ => ⟨trivial, fun t₃ ht₃ => ⟨?_, fun _ _ => trivial⟩⟩⟩
    simp only [ht₂, ht₃, Option.bind_some] at hsecond
    exact hundisturbed hsecond
  · refine ⟨trivial, fun t₁ _ => ⟨fun _ _ => ⟨fun _ => ?_, fun hb => absurd hb hunblocked⟩,
      fun t₂ _ => ⟨trivial, fun t₃ _ => ⟨fun _ _ => ⟨fun _ => ?_, fun hb => absurd hb hunblocked⟩,
        fun _ _ => trivial⟩⟩⟩⟩
    · change (1 : Int) > 0 + 1 ↔ (1 : Int) > 0 + 5
      decide
    · change (6 : Int) > 0 + 1 ↔ (6 : Int) > 0 + 5
      decide

end UdjatNetwork.Icmp
