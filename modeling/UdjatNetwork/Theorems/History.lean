import UdjatNetwork.Theorems.Busy

/-! # Histories of workers

What each call of the controller adds to the log, and what the log tells of a worker: one check after the other, each
from an insertion to a result or a removal. -/

namespace UdjatNetwork.Icmp
open Pass Machine Controller

variable {s t : Controller} {P Q : Event → Prop} {w w' w'' : World}

def Event.worker : Event → WorkerId
  | inserted _ w => w
  | set _ w _ _ => w
  | removed _ w => w

/-- A worker is given a result. -/
def Event.IsResult (e : Event) : Prop := ∃ n w r source, r ≠ .invalid ∧ e = .set n w r source

/-- What an event does to the busy flag of a worker, when the log is as it should be: a check begins with an insertion,
    and ends with a result or with the removal. -/
def checking (w : WorkerId) (busy : Bool) (e : Event) : Option Bool :=
  if e.worker ≠ w then some busy
  else match e with
    | .inserted _ _ => if busy then none else some true
    | .set _ _ _ _ => if busy then some false else none
    | .removed _ _ => if busy then some false else none

/-- The log of each worker is a sequence of checks, and the worker is busy while the last one is going on. -/
def Controller.Checked (s : Controller) : Prop :=
  ∀ w, exec (checking w) false s.world.log = some (s.world.busy w)

/-! ### What a call adds to the log -/

/-- Addresses stay, packets are added, and what is new in the log is as `P` has it. -/
structure World.Extends (P : Event → Prop) (w w' : World) : Prop where
  addr : ∀ v, (w'.workers v).addr = (w.workers v).addr
  log : ∃ es, w'.log = w.log ++ es ∧ ∀ e ∈ es, P e
  sent : w.sent <+: w'.sent

namespace World.Extends

theorem of_log (haddr : ∀ v, (w'.workers v).addr = (w.workers v).addr) (hlog : w'.log = w.log)
    (hsent : w.sent <+: w'.sent) : w.Extends P w' :=
  ⟨haddr, ⟨[], hlog.trans (List.append_nil _).symm, fun _ he => (by cases he)⟩, hsent⟩

theorem refl (w : World) : w.Extends P w := of_log (fun _ => rfl) rfl (List.prefix_refl _)

theorem trans (h : w.Extends P w') (h' : w'.Extends P w'') : w.Extends P w'' := by
  obtain ⟨haddr, ⟨es, hlog, hes⟩, hsent⟩ := h
  obtain ⟨haddr', ⟨es', hlog', hes'⟩, hsent'⟩ := h'
  refine ⟨fun v => (haddr' v).trans (haddr v), ⟨es ++ es', by rw [hlog', hlog, List.append_assoc], fun e he => ?_⟩,
    hsent.trans hsent'⟩
  rcases List.mem_append.mp he with he | he
  · exact hes e he
  · exact hes' e he

theorem mono (h : w.Extends P w') (hPQ : ∀ e, P e → Q e) : w.Extends Q w' := by
  obtain ⟨haddr, ⟨es, hlog, hes⟩, hsent⟩ := h
  exact ⟨haddr, ⟨es, hlog, fun e he => hPQ e (hes e he)⟩, hsent⟩

theorem record {e : Event} (he : P e) (w : World) : w.Extends P (w.record e) :=
  ⟨fun _ => rfl, ⟨[e], rfl, fun _ hx => by rwa [List.mem_singleton.mp hx]⟩, List.prefix_refl _⟩

theorem set (h : Host) {r : Response} (hr : r ≠ .invalid) (source : Address) (w : World) :
    w.Extends Event.IsResult (w.set h r source) :=
  record ⟨_, _, r, source, hr, rfl⟩ w

theorem setBusy (id : WorkerId) (b : Bool) (w : World) : w.Extends P (w.setBusy id b) :=
  of_log (fun v => World.addr_setBusy w v id b) rfl (List.prefix_refl _)

theorem setTime (id : WorkerId) (t : UInt64) (w : World) : w.Extends P (w.setTime id t) :=
  of_log (fun v => World.addr_setTime w v id t) rfl (List.prefix_refl _)

/-- A pass whose every visit adds such events. -/
theorem of_sweep {α : Type} {pred : α → World → World × Verdict}
    (hpred : ∀ a w w' v, pred a w = (w', v) → w.Extends P w') (l : List α) (w : World) :
    w.Extends P (sweep pred l w).2.1 := by
  refine sweep_induct pred (I := fun _ w' => w.Extends P w') ?_ ?_ ?_ (refl w) <;> intro pre a post u u' hI hp
  · exact hI.trans (hpred a u u' _ hp)
  · exact hI.trans (hpred a u u' _ hp)
  · exact hI.trans (hpred a u u' _ hp)

end World.Extends

open World (Extends)

theorem send_extends (s : Controller) (node : Nat) (addr : Address) (payload : Payload) (env : SendEnv) :
    s.world.Extends Event.IsResult (s.send node addr payload env).world := by
  rcases send_cases s node addr payload env with hsend | ⟨-, hsend⟩ | ⟨code, w, -, rfl, hsend⟩ <;> rw [hsend]
  · exact .refl _
  · exact .of_log (fun _ => rfl) rfl (List.prefix_append _ _)
  · have hsent : s.world.Extends Event.IsResult
        { s.world with sent := s.world.sent ++ [⟨node, s.seq + 1, payload⟩] } :=
      .of_log (fun _ => rfl) rfl (List.prefix_append _ _)
    refine hsent.trans (Extends.of_sweep (fun h u u' v hp => ?_) s.hosts _)
    rcases errorPred_cases hp with ⟨-, rfl⟩ | ⟨-, -, -, rfl⟩ | ⟨-, -, rfl⟩
    · exact .refl _
    · exact (Extends.set h (by simp) _ u).trans (.setBusy _ _ _)
    · exact .set h (by simp) _ u

theorem hostSend_extends (s : Controller) (h : Host) (env : SendEnv) :
    s.world.Extends Event.IsResult (s.hostSend h env).1.world :=
  send_extends (s.store _) _ _ _ env

/-- An insertion that gets through is told, and then come the results of a packet that is not sent. -/
theorem insert_extends {w : WorkerId} {env : InsertEnv} (ht : (s.insert w env).state? = some t) :
    ((∃ u, s.insert w env = .threw u) ∧ t.world = s.world) ∨
      ((∃ u, s.insert w env = .ok u) ∧ s.world.busy w = false ∧
        (s.world.record (.inserted s.nodes w)).Extends Event.IsResult t.world) := by
  rcases insert_cases s w env with ⟨u, hu, hview, -⟩ | ⟨u, hu, hb, v, hv, rfl⟩ <;> rw [hu] at ht <;> cases ht
  · exact Or.inl ⟨⟨_, hu⟩, congrArg View.world hview⟩
  · have hview : v.view = s.view := start_view (by rw [hv]; rfl)
    have hworld : v.world = s.world := congrArg View.world hview
    have hnodes : v.nodes = s.nodes := congrArg View.nodes hview
    refine Or.inr ⟨⟨_, hu⟩, hb, ?_⟩
    rw [← hworld, ← hnodes]
    let u : Controller := { v with
      id := v.id + 1, nodes := v.nodes + 1, world := (v.world.setBusy w true).record (.inserted v.nodes w) }
    have hbusy : (v.world.record (.inserted v.nodes w)).Extends Event.IsResult u.world :=
      .of_log (fun x => World.addr_setBusy v.world x w true) rfl (List.prefix_refl _)
    exact hbusy.trans (hostSend_extends u _ env.send)

theorem remove_extends (s : Controller) (w : WorkerId) :
    s.world.Extends (fun e => ∃ n, e = .removed n w) (s.remove w).world := by
  have hworld : (s.remove w).world = (sweep (removePred w) s.hosts s.world).2.1 := congrArg View.world view_stopIfEmpty
  rw [hworld]
  refine .of_sweep (fun h u u' v hp => ?_) _ _
  rcases removePred_cases hp with ⟨-, -, rfl⟩ | ⟨-, rfl, rfl⟩
  · exact .refl _
  · exact (Extends.setBusy _ _ u).trans (.record ⟨h.node, rfl⟩ _)

theorem timerPred_extends {env : Nat → TimerEnv} {n : Nat} {v : Verdict} (hp : timerPred env n s = (t, v)) :
    s.world.Extends Event.IsResult t.world := by
  rcases timerPred_cases hp with ⟨-, rfl⟩ | ⟨h, -, -, ⟨-, rfl⟩ | ⟨-, -, rfl⟩ | ⟨-, rfl⟩⟩
  · exact .refl _
  · exact (Extends.set h (by simp) _ _).trans (.setBusy _ _ _)
  · exact .set h (by simp) _ _
  · exact hostSend_extends s h _

theorem timerTask_extends {env : Nat → TimerEnv} (ht : (s.timerTask env).state? = some t) :
    s.world.Extends Event.IsResult t.world := by
  refine timerTask_induct (I := fun u => s.world.Extends Event.IsResult u.world) (fun n u u' v hI hp => ?_)
    (fun u hI => ?_) (.refl _) ht
  · have hu := hI.trans (timerPred_extends hp)
    split_ifs <;> exact hu
  · rwa [show u.stopIfEmpty.world = u.world from congrArg View.world view_stopIfEmpty]

theorem handleEvent_extends (s : Controller) (oninput : Bool) (recv : Recv) (now : Nat → Timespec) :
    s.world.Extends Event.IsResult (s.handleEvent oninput recv now).world := by
  unfold Controller.handleEvent
  split
  · split
    · exact .refl _
    · refine .of_sweep (fun h u u' v hp => ?_) _ _
      rcases responsePred_cases hp with ⟨-, rfl⟩ | ⟨-, -, ⟨time, rfl⟩ | ⟨r, hr, rfl⟩ | ⟨-, rfl⟩⟩
      · exact .refl _
      · exact ((Extends.setTime _ time u).trans (.set h (by simp) _ _)).trans (.setBusy _ _ _)
      · exact (Extends.set h hr _ u).trans (.setBusy _ _ _)
      · exact .setBusy _ _ u
  · exact .refl _

/-- Every step tells results, an insertion that it got through, and a removal only what it removes. -/
def Controller.Input.Tells : Input → Event → Prop
  | .insert w _, e => e.IsResult ∨ ∃ n, e = .inserted n w
  | .remove w, e => ∃ n, e = .removed n w
  | _, e => e.IsResult

theorem step_extends {i : Input} (ha : ∀ w a, i ≠ .address w a) (ht : s.step i = some t) :
    s.world.Extends i.Tells t.world := by
  cases i with
  | insert w env =>
    rcases insert_extends ht with ⟨-, hworld⟩ | ⟨-, -, hext⟩
    · rw [hworld]
      exact .refl _
    · exact (Extends.record (Or.inr ⟨s.nodes, rfl⟩) s.world).trans (hext.mono fun _ he => Or.inl he)
  | remove w =>
    cases ht
    exact remove_extends s w
  | onTimer =>
    cases ht
    split <;> exact .refl _
  | task env =>
    change (if s.queued = 0 then some s else _) = some t at ht
    split at ht
    · cases ht
      exact .refl _
    · exact timerTask_extends (s := { s with queued := s.queued - 1 }) ht
  | handleEvent oninput recv now =>
    cases ht
    exact handleEvent_extends s oninput recv now
  | address w a => exact absurd rfl (ha w a)

/-! ### Checks -/

section Moves
variable {lossy throwing : Prop} {u v : View}

theorem checking_other {x : WorkerId} {e : Event} (he : e.worker ≠ x) (b : Bool) : checking x b e = some b := if_pos he

theorem exec_checking_singleton {x : WorkerId} {b : Bool} {e : Event} : exec (checking x) b [e] = checking x b e := by
  rw [exec]
  exact Option.bind_fun_some _

/-- A move tells of the worker whose flag it changes, as far as it is no fault. -/
theorem Move.checking (hu : Flags u) (m : Move False False u v) :
    ∃ es, v.world.log = u.world.log ++ es ∧ ∀ x, exec (Icmp.checking x) (u.world.busy x) es = some (v.world.busy x) := by
  have ended : ∀ {pre post : List Host} {h : Host} {w : World} {n : Nat} {e : Event} {w' : World},
      Flags ⟨pre ++ h :: post, w, n⟩ → (e = .removed h.node h.worker ∨ ∃ r source, e = .set h.node h.worker r source) →
      (∀ x, w'.busy x = if x = h.worker then false else w.busy x) →
      ∀ x, exec (Icmp.checking x) (w.busy x) [e] = some (w'.busy x) := by
    intro pre post h w n e w' hu he hbusy x
    have hworker : e.worker = h.worker := by rcases he with rfl | ⟨r, source, rfl⟩ <;> rfl
    rw [exec_checking_singleton, hbusy]
    by_cases hx : x = h.worker
    · have hb : w.busy h.worker = true := (hu.busy h.worker).mpr (by simp)
      subst hx
      rw [if_pos rfl, hb]
      rcases he with rfl | ⟨r, source, rfl⟩ <;> simp [Icmp.checking, Event.worker]
    · rw [if_neg hx, checking_other (hworker.trans_ne (Ne.symm hx))]
  cases m with
  | count | sent => exact ⟨[], (List.append_nil _).symm, fun _ => rfl⟩
  | time => exact ⟨[], (List.append_nil _).symm, fun _ => by rw [World.busy_setTime]; rfl⟩
  | address => exact ⟨[], (List.append_nil _).symm, fun _ => by rw [World.busy_setAddr]; rfl⟩
  | @answer pre post h w n r source =>
    exact ⟨[.set h.node h.worker r source], rfl, ended hu (Or.inr ⟨r, source, rfl⟩) fun x => by simp⟩
  | fail r source ht => exact ht.elim
  | lose hl => exact hl.elim
  | @remove pre post h w n => exact ⟨[.removed h.node h.worker], rfl, ended hu (Or.inl rfl) fun x => by simp⟩
  | @insert hosts w h n x hn hx hb =>
    refine ⟨[.inserted n x], rfl, fun y => ?_⟩
    rw [exec_checking_singleton]
    by_cases hy : y = x
    · subst hy
      simp [Icmp.checking, Event.worker, hb]
    · rw [checking_other (Ne.symm hy)]
      simp [hy]

theorem Moves.checking (hu : Flags u) (h : Moves False False u v) :
    ∃ es, v.world.log = u.world.log ++ es ∧ ∀ x, exec (Icmp.checking x) (u.world.busy x) es = some (v.world.busy x) := by
  refine (h.induct (I := fun v => Flags v ∧ ∃ es, v.world.log = u.world.log ++ es ∧
    ∀ x, exec (Icmp.checking x) (u.world.busy x) es = some (v.world.busy x)) (fun a b hI m => ?_)
    ⟨hu, [], (List.append_nil _).symm, fun _ => rfl⟩).2
  obtain ⟨ha, es, hlog, hes⟩ := hI
  obtain ⟨es', hlog', hes'⟩ := m.checking ha
  refine ⟨ha.move m, es ++ es', by rw [hlog', hlog, List.append_assoc], fun x => ?_⟩
  rw [exec_append, hes x, Option.bind_some, hes' x]

/-- Who is told something was busy before, or was inserted in the meantime. -/
theorem Moves.told (hu : Flags u) (h : Moves lossy throwing u v) :
    ∃ es, v.world.log = u.world.log ++ es ∧
      (∀ x, v.world.busy x = true → u.world.busy x = true ∨ ∃ n, .inserted n x ∈ es) ∧
      ∀ e ∈ es, u.world.busy e.worker = true ∨ ∃ n, .inserted n e.worker ∈ es := by
  refine (h.induct (I := fun v => Flags v ∧ ∃ es, v.world.log = u.world.log ++ es ∧
    (∀ x, v.world.busy x = true → u.world.busy x = true ∨ ∃ n, .inserted n x ∈ es) ∧
      ∀ e ∈ es, u.world.busy e.worker = true ∨ ∃ n, .inserted n e.worker ∈ es) (fun a b hI m => ?_)
    ⟨hu, [], (List.append_nil _).symm, fun _ hx => Or.inl hx, fun _ he => (by cases he)⟩).2
  obtain ⟨ha, es, hlog, hbusy, hes⟩ := hI
  have hb := ha.move m
  -- An event for a host of the list is for a busy worker.
  have told : ∀ {e : Event}, a.world.busy e.worker = true → b.world.log = a.world.log ++ [e] →
      (∀ x, b.world.busy x = true → a.world.busy x = true) → ∃ es, b.world.log = u.world.log ++ es ∧
        (∀ x, b.world.busy x = true → u.world.busy x = true ∨ ∃ n, .inserted n x ∈ es) ∧
          ∀ e ∈ es, u.world.busy e.worker = true ∨ ∃ n, .inserted n e.worker ∈ es := by
    intro e he hlog' hle
    have more : ∀ x, a.world.busy x = true → u.world.busy x = true ∨ ∃ n, .inserted n x ∈ es ++ [e] := fun x hx =>
      (hbusy x hx).imp_right fun ⟨n, hn⟩ => ⟨n, List.mem_append_left _ hn⟩
    refine ⟨es ++ [e], by rw [hlog', hlog, List.append_assoc], fun x hx => more x (hle x hx), fun x hx => ?_⟩
    rcases List.mem_append.mp hx with hx | hx
    · exact (hes x hx).imp_right fun ⟨n, hn⟩ => ⟨n, List.mem_append_left _ hn⟩
    · rw [List.mem_singleton.mp hx]
      exact more _ he
  have same : b.world.log = a.world.log → (∀ x, b.world.busy x = true → a.world.busy x = true) →
      ∃ es, b.world.log = u.world.log ++ es ∧
        (∀ x, b.world.busy x = true → u.world.busy x = true ∨ ∃ n, .inserted n x ∈ es) ∧
          ∀ e ∈ es, u.world.busy e.worker = true ∨ ∃ n, .inserted n e.worker ∈ es := fun hlog' hle =>
    ⟨es, hlog'.trans hlog, fun x hx => hbusy x (hle x hx), hes⟩
  refine ⟨hb, ?_⟩
  cases m with
  | count | sent => exact same rfl fun _ hx => hx
  | time => exact same rfl fun x hx => by simpa using hx
  | address => exact same rfl fun x hx => by simpa using hx
  | @answer pre post h w n r source =>
    refine told (e := .set h.node h.worker r source) ((ha.busy h.worker).mpr (by simp)) rfl fun x hx => ?_
    simp only [World.busy_setBusy, World.busy_set] at hx
    split_ifs at hx
    exact hx
  | @fail pre post h w n r source =>
    exact told (e := .set h.node h.worker r source) ((ha.busy h.worker).mpr (by simp)) rfl fun x hx => hx
  | lose =>
    refine same rfl fun x hx => ?_
    simp only [World.busy_setBusy] at hx
    split_ifs at hx
    exact hx
  | @remove pre post h w n =>
    refine told (e := .removed h.node h.worker) ((ha.busy h.worker).mpr (by simp)) rfl fun x hx => ?_
    simp only [World.busy_record, World.busy_setBusy] at hx
    split_ifs at hx
    exact hx
  | @insert hosts w h n x hn hx hb =>
    refine ⟨es ++ [.inserted n x], ?_, fun y hy => ?_, fun e he => ?_⟩
    · change w.log ++ [_] = _
      rw [show w.log = u.world.log ++ es from hlog, List.append_assoc]
    · by_cases hyx : y = x
      · exact Or.inr ⟨n, by simp [hyx]⟩
      · refine (hbusy y (by simpa [hyx] using hy)).imp_right fun ⟨m, hm⟩ => ⟨m, List.mem_append_left _ hm⟩
    · rcases List.mem_append.mp he with he | he
      · exact (hes e he).imp_right fun ⟨m, hm⟩ => ⟨m, List.mem_append_left _ hm⟩
      · rw [List.mem_singleton.mp he]
        exact Or.inr ⟨n, by simp [Event.worker]⟩

end Moves

/-! ### Runs -/

/-- A step without a fault adds to the checks of every worker. -/
theorem step_checking {i : Input} (hs : Sound s) (hthrows : ¬ i.Throws) (hloses : ¬ s.Loses i) (ht : s.step i = some t) :
    ∃ es, t.world.log = s.world.log ++ es ∧ ∀ w, exec (checking w) (s.world.busy w) es = some (t.world.busy w) :=
  Moves.checking hs.flags ((step_moves hs.numbered ht).mono hloses hthrows)

/-- While no worker throws, and no packet of an unexpected type takes a host from the list, the log tells of every
    worker one check after the other: each is begun by an insertion and ended by one result or one removal, before the
    next one begins, and the worker is busy while a check is going on. --/
theorem checks_alternate (pid : Nat) (workers : WorkerId → Worker) (is : List Input) (hthrows : ∀ i ∈ is, ¬ i.Throws)
    (hloses : Along step (fun s i => ¬ s.Loses i) (init pid workers) is) :
    Always step Checked (init pid workers) is := by
  have hC := hloses.and (along_of_forall (C := fun i => ¬ i.Throws) hthrows)
  have inv : Always step (fun s => Sound s ∧ s.Checked) (init pid workers) is := by
    refine always_of_along (fun s i t hs hc ht => ⟨step_sound hs.1 ht, fun w => ?_⟩)
      ⟨sound_init pid workers, fun w => rfl⟩ hC
    obtain ⟨es, hlog, hes⟩ := step_checking hs.1 hc.2 hc.1 ht
    rw [hlog, exec_append, hs.2 w, Option.bind_some, hes w]
  exact inv.mono fun s hs => hs.2

/-- A worker whose check times out, and which is checked again, removed, and checked a third time. --/
theorem checks_alternate_again :
    let e : InsertEnv := { start := { socket := some 7 } }
    let is : List Input := [.insert 0 e, .onTimer, .task fun _ => { now := 10 }, .insert 0 e, .remove 0, .insert 0 e]
    ((exec step (init 1 fun _ => {}) is).map fun s => s.world.log) = some
      [.inserted 0 0, .set 0 0 .timeout .empty, .inserted 1 0, .removed 1 0, .inserted 2 0] ∧
    Always step Checked (init 1 fun _ => {}) is := by
  intro e is
  refine ⟨by decide, checks_alternate 1 _ _ (by simp [is, e, Input.Throws, SendEnv.Throws]) ?_⟩
  exact ⟨id, fun _ _ => ⟨id, fun _ _ => ⟨id, fun _ _ => ⟨id, fun _ _ => ⟨id, fun _ _ => ⟨id, fun _ _ => trivial⟩⟩⟩⟩⟩⟩

end UdjatNetwork.Icmp
