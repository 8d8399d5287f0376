import UdjatNetwork.Theorems.History

/-! # What is known of a node

The hosts of the list and the packets sent are of nodes that were inserted, each for one worker; and what no call
changes: the identifier of the process, the intervals of the workers, and what was sent before. -/

namespace UdjatNetwork.Icmp
open Pass Machine Controller

variable {s t : Controller} {lossy throwing : Prop} {u v : View}

/-! ### Insertions in the log -/

/-- The hosts of the list were inserted for their workers, and a node for one worker only. -/
structure Registered (v : View) : Prop where
  hosts : ∀ h ∈ v.hosts, .inserted h.node h.worker ∈ v.world.log
  unique : ∀ n w w', .inserted n w ∈ v.world.log → .inserted n w' ∈ v.world.log → w = w'

theorem Registered.leave {pre post : List Host} {h : Host} {w w' : World} {n : Nat} {e : Event}
    (hu : Registered ⟨pre ++ h :: post, w, n⟩) {l : List Host} (hl : ∀ x ∈ l, x ∈ pre ++ h :: post)
    (he : ∀ m x, e ≠ .inserted m x) (hlog : w'.log = w.log ++ [e]) : Registered ⟨l, w', n⟩ := by
  have hold : ∀ {m x}, .inserted m x ∈ w'.log → .inserted m x ∈ w.log := fun {m x} hm => by
    rw [hlog] at hm
    exact (List.mem_append.mp hm).resolve_right fun hmem => he m x (List.mem_singleton.mp hmem).symm
  refine ⟨fun x hx => ?_, fun m x y hx hy => hu.unique m x y (hold hx) (hold hy)⟩
  rw [hlog]
  exact List.mem_append_left _ (hu.hosts x (hl x hx))

theorem Registered.move (hlog : Logged u) (hu : Registered u) (m : Move lossy throwing u v) : Registered v := by
  have shorter : ∀ {pre post : List Host} {h x : Host}, x ∈ pre ++ post → x ∈ pre ++ h :: post := fun hx => by
    rcases List.mem_append.mp hx with hx | hx
    · exact List.mem_append_left _ hx
    · exact List.mem_append_right _ (List.mem_cons_of_mem _ hx)
  cases m with
  | @count pre post h w n next packets =>
    refine ⟨fun x hx => ?_, hu.unique⟩
    rcases List.mem_append.mp hx with hx | hx
    · exact hu.hosts x (List.mem_append_left _ hx)
    · rcases List.mem_cons.mp hx with rfl | hx
      · exact hu.hosts h (List.mem_append_right _ List.mem_cons_self)
      · exact hu.hosts x (List.mem_append_right _ (List.mem_cons_of_mem _ hx))
  | sent | time | address => exact ⟨hu.hosts, hu.unique⟩
  | lose => exact ⟨fun x hx => hu.hosts x (shorter hx), hu.unique⟩
  | @answer pre post h w n r source =>
    exact hu.leave (e := .set h.node h.worker r source) (fun x hx => shorter hx) (fun _ _ he => by cases he) rfl
  | @fail pre post h w n r source =>
    exact hu.leave (e := .set h.node h.worker r source) (fun x hx => hx) (fun _ _ he => by cases he) rfl
  | @remove pre post h w n =>
    exact hu.leave (e := .removed h.node h.worker) (fun x hx => shorter hx) (fun _ _ he => by cases he) rfl
  | @insert hosts w h n x hn hx hb =>
    subst hn hx
    have hfresh : ∀ y, .inserted h.node y ∉ w.log := fun y hy => Nat.lt_irrefl _ (hlog _ hy)
    refine ⟨fun y hy => ?_, fun m x y hx hy => ?_⟩
    · rcases List.mem_append.mp hy with hy | hy
      · exact List.mem_append_left _ (hu.hosts y hy)
      · rw [List.mem_singleton.mp hy]
        exact List.mem_append_right _ (List.mem_singleton_self _)
    · rcases List.mem_append.mp hx with hx | hx <;> rcases List.mem_append.mp hy with hy | hy
      · exact hu.unique m x y hx hy
      · cases List.mem_singleton.mp hy
        exact absurd hx (hfresh x)
      · cases List.mem_singleton.mp hx
        exact absurd hy (hfresh y)
      · cases List.mem_singleton.mp hx
        cases List.mem_singleton.mp hy
        rfl

theorem Move.nodes_le (m : Move lossy throwing u v) : u.nodes ≤ v.nodes := by
  cases m with
  | insert => exact Nat.le_succ _
  | _ => exact Nat.le_refl _

/-- What a state knows of its nodes: the numbers, the events, and the packets of the hosts that were inserted. -/
structure Known (s : Controller) : Prop where
  numbered : Numbered s.view
  logged : Logged s.view
  registered : Registered s.view
  sent : ∀ p ∈ s.world.sent, ∃ w, .inserted p.node w ∈ s.world.log

theorem known_init (pid : Nat) (workers : WorkerId → Worker) : Known (init pid workers) where
  numbered := numbered_init pid workers
  logged := fun _ he => by cases he
  registered := ⟨fun _ hh => (by cases hh), fun _ _ _ he => (by cases he)⟩
  sent := fun _ hp => by cases hp

/-- Moves keep what is known, when the packets that they send are of hosts that were inserted. -/
theorem Known.moves (hs : Known s) (h : Moves lossy throwing s.view t.view)
    (hsent : ∀ p ∈ t.world.sent, p ∈ s.world.sent ∨ ∃ w, .inserted p.node w ∈ t.world.log) : Known t := by
  obtain ⟨hn, hlogged, hregistered⟩ := h.induct (I := fun v => Numbered v ∧ Logged v ∧ Registered v)
    (fun _ _ hI m => ⟨hI.1.move m, hI.2.1.move hI.1 m, hI.2.2.move hI.2.1 m⟩) ⟨hs.numbered, hs.logged, hs.registered⟩
  refine ⟨hn, hlogged, hregistered, fun p hp => ?_⟩
  rcases hsent p hp with hp | hknown
  · obtain ⟨w, hw⟩ := hs.sent p hp
    exact ⟨w, h.log_grows.subset hw⟩
  · exact hknown

theorem hostSend_packets (s : Controller) (h : Host) (env : SendEnv) :
    ∀ p ∈ (s.hostSend h env).1.world.sent, p ∈ s.world.sent ∨ p.node = h.node := by
  intro p hp
  rcases send_packets (s.store { h with next := env.time + (s.world.workers h.worker).interval, packets := h.packets + 1 })
    h.node (s.world.workers h.worker).addr { id := h.id, seq := h.packets + 1, time := getCurrentTime env.clock } env
    with hsent | hsent
  · exact Or.inl (hsent ▸ hp)
  · have hp : p ∈ s.world.sent ++ [_] := hsent ▸ hp
    rcases List.mem_append.mp hp with hp | hp
    · exact Or.inl hp
    · exact Or.inr (by rw [List.mem_singleton.mp hp])

theorem timerTask_known {env : Nat → TimerEnv} (hs : Known s) (ht : (s.timerTask env).state? = some t) : Known t := by
  refine timerTask_induct (fun n u u' v hI hp => ?_) (fun u hI => ?_) hs ht
  · have hmoves := timerPred_moves hI.numbered hp
    refine hI.moves hmoves fun p hp' => ?_
    have hsent : p ∈ u'.world.sent := by
      split_ifs at hp'
      · exact hp'
      · exact hp'
    rcases timerPred_cases hp with ⟨-, rfl⟩ | ⟨h, hh, -, ⟨-, rfl⟩ | ⟨-, -, rfl⟩ | ⟨-, rfl⟩⟩
    · exact Or.inl hsent
    · exact Or.inl hsent
    · exact Or.inl hsent
    · refine (hostSend_packets u h _ p hsent).imp_right fun hnode => ⟨h.worker, ?_⟩
      rw [hnode]
      exact hmoves.log_grows.subset (hI.registered.hosts h hh)
  · have hmoves : Moves False False u.view u.stopIfEmpty.view := by rw [view_stopIfEmpty]
    refine hI.moves hmoves fun p hp => Or.inl ?_
    rwa [show u.stopIfEmpty.world = u.world from congrArg View.world view_stopIfEmpty] at hp

theorem insert_known {w : WorkerId} {env : InsertEnv} (hs : Known s) (ht : (s.insert w env).state? = some t) : Known t := by
  have hmoves := insert_moves hs.numbered ht
  refine hs.moves hmoves fun p hp => ?_
  rcases insert_extends ht with ⟨-, hworld⟩ | ⟨⟨u, hu⟩, -, -, ⟨es, hlog, -⟩, -⟩
  · rw [hworld] at hp
    exact Or.inl hp
  · rcases insert_cases s w env with ⟨x, hx, -⟩ | ⟨x, hx, -, v, hv, rfl⟩
    · rw [hx] at hu
      cases hu
    · rw [hx] at ht
      cases ht
      have hview : v.view = s.view := start_view (by rw [hv]; rfl)
      have hworld : v.world = s.world := congrArg View.world hview
      have hnodes : v.nodes = s.nodes := congrArg View.nodes hview
      refine (hostSend_packets _ _ env.send p hp).imp (fun hp => ?_) fun hnode => ⟨w, ?_⟩
      · rw [← hworld]
        exact hp
      · have hnode : p.node = s.nodes := hnode.trans hnodes
        rw [hnode, hlog, World.log_record, List.append_assoc]
        exact List.mem_append_right _ List.mem_cons_self

/-- A removal takes hosts from the list, and sends nothing. -/
theorem remove_packets (s : Controller) (w : WorkerId) :
    (s.remove w).hosts ⊆ s.hosts ∧ (s.remove w).world.sent = s.world.sent := by
  have hview : (s.remove w).view = _ := view_stopIfEmpty
  have hhosts : (s.remove w).hosts = (sweep (removePred w) s.hosts s.world).1 := congrArg View.hosts hview
  have hworld : (s.remove w).world = (sweep (removePred w) s.hosts s.world).2.1 := congrArg View.world hview
  rw [hhosts, hworld]
  refine ⟨(sweep_sublist _ _ _).subset, sweep_keeps _ World.sent (fun h u u' v hp => ?_) _ _⟩
  rcases removePred_cases hp with ⟨-, -, rfl⟩ | ⟨-, -, rfl⟩ <;> rfl

theorem handleEvent_packets (s : Controller) (oninput : Bool) (recv : Recv) (now : Nat → Timespec) :
    (s.handleEvent oninput recv now).hosts ⊆ s.hosts ∧
      (s.handleEvent oninput recv now).world.sent = s.world.sent := by
  unfold Controller.handleEvent
  split
  · split
    · exact ⟨List.Subset.refl _, rfl⟩
    · refine ⟨(sweep_sublist _ _ _).subset, sweep_keeps _ World.sent (fun h u u' v hp => ?_) _ _⟩
      rcases responsePred_cases hp with ⟨-, rfl⟩ | ⟨-, -, ⟨_, rfl⟩ | ⟨_, -, rfl⟩ | ⟨-, rfl⟩⟩ <;> rfl
  · exact ⟨List.Subset.refl _, rfl⟩

theorem step_known {i : Input} (hs : Known s) (ht : s.step i = some t) : Known t := by
  have quiet : t.world.sent = s.world.sent → Known t := fun hsent =>
    hs.moves (step_moves hs.numbered ht) fun p hp => Or.inl (hsent ▸ hp)
  cases i with
  | insert w env => exact insert_known hs ht
  | remove w =>
    cases ht
    exact quiet (remove_packets s w).2
  | onTimer =>
    cases ht
    refine quiet ?_
    split <;> rfl
  | task env =>
    change (if s.queued = 0 then some s else _) = some t at ht
    split at ht
    · cases ht
      exact hs
    · exact timerTask_known (s := { s with queued := s.queued - 1 }) ⟨hs.numbered, hs.logged, hs.registered, hs.sent⟩ ht
  | handleEvent oninput recv now =>
    cases ht
    exact quiet (handleEvent_packets s oninput recv now).2
  | address w addr =>
    cases ht
    exact quiet rfl

/-! ### What no call changes -/

theorem send_pid (s : Controller) (node : Nat) (addr : Address) (payload : Payload) (env : SendEnv) :
    (s.send node addr payload env).pid = s.pid := by
  rcases send_cases s node addr payload env with hsend | ⟨-, hsend⟩ | ⟨code, w, -, -, hsend⟩ <;> rw [hsend]

theorem start_pid {e : StartEnv} (ht : (s.start e).state? = some t) : t.pid = s.pid := by
  have ho : (s.openSocket e).1.pid = s.pid := by
    unfold openSocket
    split
    · split <;> rfl
    · rfl
  unfold Controller.start at ht
  split at ht <;> rename_i u hu <;> rw [hu] at ho <;> cases ht <;> exact ho

theorem stopIfEmpty_pid (s : Controller) : s.stopIfEmpty.pid = s.pid := by
  unfold stopIfEmpty
  split <;> rfl

theorem step_pid {i : Input} (ht : s.step i = some t) : t.pid = s.pid := by
  cases i with
  | insert w env =>
    change (s.insert w env).state? = some t at ht
    unfold Controller.insert at ht
    split at ht
    · cases ht
      rfl
    · split at ht
      · rename_i u hu
        cases ht
        have hu : u.pid = s.pid := start_pid (by rw [hu]; rfl)
        exact (send_pid _ _ _ _ _).trans hu
      · exact start_pid ht
  | remove w =>
    cases ht
    exact stopIfEmpty_pid _
  | onTimer =>
    cases ht
    split <;> rfl
  | task env =>
    change (if s.queued = 0 then some s else _) = some t at ht
    split at ht
    · cases ht
      rfl
    · refine timerTask_induct (s := { s with queued := s.queued - 1 }) (I := fun u => u.pid = s.pid)
        (fun n u u' v hI hp => ?_) (fun u hI => (stopIfEmpty_pid u).trans hI) rfl ht
      have hu : u'.pid = u.pid := by
        rcases timerPred_cases hp with ⟨-, rfl⟩ | ⟨h, -, -, ⟨-, rfl⟩ | ⟨-, -, rfl⟩ | ⟨-, rfl⟩⟩
        · rfl
        · rfl
        · rfl
        · exact send_pid _ _ _ _ _
      split_ifs <;> exact hu.trans hI
  | handleEvent oninput recv now =>
    cases ht
    unfold Controller.handleEvent
    split
    · split <;> rfl
    · rfl
  | address w addr =>
    cases ht
    rfl

theorem step_sent {i : Input} (ht : s.step i = some t) : s.world.sent <+: t.world.sent := by
  by_cases ha : ∃ w a, i = .address w a
  · obtain ⟨w, a, rfl⟩ := ha
    cases ht
    exact List.prefix_refl _
  · exact (step_extends (fun w a he => ha ⟨w, a, he⟩) ht).sent

theorem Move.interval (m : Move lossy throwing u v) (x : WorkerId) :
    (v.world.workers x).interval = (u.world.workers x).interval := by
  cases m with
  | count | sent => rfl
  | time => exact World.interval_setTime _ _ _ _
  | address => exact World.interval_setAddr _ _ _ _
  | answer | lose | remove | insert => exact World.interval_setBusy _ _ _ _
  | fail => rfl

theorem Moves.interval (h : Moves lossy throwing u v) (x : WorkerId) :
    (v.world.workers x).interval = (u.world.workers x).interval :=
  h.induct (I := fun v => (v.world.workers x).interval = (u.world.workers x).interval)
    (fun _ _ hI m => (m.interval x).trans hI) rfl

end UdjatNetwork.Icmp
