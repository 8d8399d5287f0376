import UdjatNetwork.Icmp.Moves

/-! # Every step of the controller is a sequence of moves

Each removal pass is unfolded once, here; what holds of the host list is then proved for moves. -/

namespace UdjatNetwork.Icmp
open Pass Machine Controller

/-- Some worker leaves its `set` by an exception. -/
def SendEnv.Throws (env : SendEnv) : Prop := ∃ n, env.throws n = true

/-- Some worker leaves its `set` by an exception during the step. -/
def Controller.Input.Throws : Input → Prop
  | .insert _ env => env.send.Throws
  | .task env => ∃ n, (env n).send.Throws
  | _ => False

/-- An ICMP type that `Host::onResponse` has no case for. -/
def Unexpected (type : UInt8) : Prop :=
  type ≠ ICMP_ECHO ∧ type ≠ ICMP_ECHOREPLY ∧ type ≠ ICMP_DEST_UNREACH ∧ type ≠ ICMP_TIME_EXCEEDED

/-- The step hands a packet of an unexpected type to a host with its identifier. -/
def Controller.Loses (s : Controller) : Input → Prop
  | .handleEvent true recv _ => ∃ packet addr, accepted s.pid recv = some (packet, addr) ∧
      Unexpected packet.type ∧ ∃ h ∈ s.hosts, packet.payload.id = h.id
  | _ => False

def Controller.view (s : Controller) : View := ⟨s.hosts, s.world, s.nodes⟩

/-! ## The predicates -/

section Predicates
variable {h : Host} {w w' : World} {v : Verdict}

theorem errorPred_cases {code : Nat} {payload : Payload} {throws : Nat → Bool}
    (hp : errorPred code payload throws h w = (w', v)) :
    (v = .keep ∧ w' = w) ∨
    (v = .drop ∧ payload.id = h.id ∧ code = ENETUNREACH ∧
      w' = (w.set h .networkUnreachable .empty).setBusy h.worker false) ∨
    (v = .raise ∧ throws h.node = true ∧ w' = w.set h .networkUnreachable .empty) := by
  unfold errorPred Host.onError at hp
  by_cases hid : payload.id = h.id
  · by_cases hc : code = ENETUNREACH
    · cases ht : throws h.node <;> simp [hid, hc, ht] at hp <;> obtain ⟨rfl, rfl⟩ := hp <;>
        simp [hid, hc]
    · simp [hid, hc] at hp
      obtain ⟨rfl, rfl⟩ := hp
      simp
  · simp [hid] at hp
    obtain ⟨rfl, rfl⟩ := hp
    simp

theorem onResponse_cases {type : UInt8} {addr : Address} {payload : Payload} {now : Timespec} {b : Bool}
    (hr : h.onResponse type addr payload now w = (w', b)) :
    (b = false ∧ w' = w) ∨
    (b = true ∧ payload.id = h.id ∧
      ((∃ t, w' = (w.setTime h.worker t).set h .echoReply addr) ∨
        (∃ r, r ≠ .invalid ∧ w' = w.set h r addr) ∨ (Unexpected type ∧ w' = w))) := by
  unfold Host.onResponse at hr
  split_ifs at hr with hid h8 h0 h3 h11 <;> cases hr
  · exact Or.inl ⟨rfl, rfl⟩
  · exact Or.inl ⟨rfl, rfl⟩
  · exact Or.inr ⟨rfl, not_not.mp hid, Or.inl ⟨_, rfl⟩⟩
  · exact Or.inr ⟨rfl, not_not.mp hid, Or.inr (Or.inl ⟨.destinationUnreachable, by simp, rfl⟩)⟩
  · exact Or.inr ⟨rfl, not_not.mp hid, Or.inr (Or.inl ⟨.timeExceeded, by simp, rfl⟩)⟩
  · exact Or.inr ⟨rfl, not_not.mp hid, Or.inr (Or.inr ⟨⟨h8, h0, h3, h11⟩, rfl⟩)⟩

theorem responsePred_cases {packet : Packet} {addr : Address} {now : Nat → Timespec}
    (hp : responsePred packet addr now h w = (w', v)) :
    (v = .keep ∧ w' = w) ∨
    (v = .drop ∧ packet.payload.id = h.id ∧
      ((∃ t, w' = ((w.setTime h.worker t).set h .echoReply addr).setBusy h.worker false) ∨
        (∃ r, r ≠ .invalid ∧ w' = (w.set h r addr).setBusy h.worker false) ∨
        (Unexpected packet.type ∧ w' = w.setBusy h.worker false))) := by
  unfold responsePred at hp
  rcases hr : h.onResponse packet.type addr packet.payload (now h.node) w with ⟨w₁, b⟩
  rw [hr] at hp
  rcases onResponse_cases hr with ⟨rfl, rfl⟩ | ⟨rfl, hid, ⟨t, rfl⟩ | ⟨r, hne, rfl⟩ | ⟨hu, rfl⟩⟩ <;> cases hp
  · exact Or.inl ⟨rfl, rfl⟩
  · exact Or.inr ⟨rfl, hid, Or.inl ⟨t, rfl⟩⟩
  · exact Or.inr ⟨rfl, hid, Or.inr (Or.inl ⟨r, hne, rfl⟩)⟩
  · exact Or.inr ⟨rfl, hid, Or.inr (Or.inr ⟨hu, rfl⟩)⟩

theorem removePred_cases {id : WorkerId} (hp : removePred id h w = (w', v)) :
    (v = .keep ∧ h.worker ≠ id ∧ w' = w) ∨
    (v = .drop ∧ h.worker = id ∧ w' = (w.setBusy h.worker false).record (.removed h.node h.worker)) := by
  unfold removePred at hp
  split at hp
  · rename_i hw
    subst hw
    cases hp
    exact Or.inr ⟨rfl, rfl, rfl⟩
  · rename_i hw
    cases hp
    exact Or.inl ⟨rfl, hw, rfl⟩

end Predicates

/-! ## Sending -/

section Send
variable {s : Controller}

/-- A call of `send` does nothing, without a socket or an IPv4 address, or hands out a packet; when that fails, the
    pass over the hosts follows. -/
theorem send_cases (s : Controller) (node : Nat) (addr : Address) (payload : Payload) (env : SendEnv) :
    s.send node addr payload env = s ∨
    (env.errno = none ∧ s.send node addr payload env = { s with
      seq := s.seq + 1, world := { s.world with sent := s.world.sent ++ [⟨node, s.seq + 1, payload⟩] } }) ∨
    ∃ code w, env.errno = some code ∧ w = { s.world with sent := s.world.sent ++ [⟨node, s.seq + 1, payload⟩] } ∧
      s.send node addr payload env = { s with
        seq := s.seq + 1
        hosts := (sweep (errorPred code payload env.throws) s.hosts w).1
        world := (sweep (errorPred code payload env.throws) s.hosts w).2.1 } := by
  unfold Controller.send
  split_ifs
  · exact Or.inl rfl
  · cases addr with
    | inet a =>
      cases env.errno with
      | none => exact Or.inr (Or.inl ⟨rfl, rfl⟩)
      | some code => exact Or.inr (Or.inr ⟨code, _, rfl, rfl, rfl⟩)
    | empty | inet6 | other => exact Or.inl rfl

/-- The pass of a send error; `tail` is what follows the list, such as a host under construction. -/
theorem errorSweep_moves {hosts : List Host} {w : World} {n : Nat} {code : Nat} {payload : Payload}
    (env : SendEnv) (tail : List Host) :
    Moves False env.Throws ⟨hosts ++ tail, w, n⟩
      ⟨(sweep (errorPred code payload env.throws) hosts w).1 ++ tail,
        (sweep (errorPred code payload env.throws) hosts w).2.1, n⟩ := by
  refine sweep_induct _ (I := fun l w' => Moves False env.Throws ⟨hosts ++ tail, w, n⟩ ⟨l ++ tail, w', n⟩)
    ?_ ?_ ?_ .refl
  · intro pre a post w w' hI hp
    rcases errorPred_cases hp with ⟨-, rfl⟩ | ⟨hv, -⟩ | ⟨hv, -⟩
    · exact hI
    · cases hv
    · cases hv
  · intro pre a post w w' hI hp
    rcases errorPred_cases hp with ⟨hv, -⟩ | ⟨-, -, -, rfl⟩ | ⟨hv, -⟩
    · cases hv
    · refine hI.tail ?_
      rw [List.append_assoc, List.append_assoc, List.cons_append]
      exact .answer _ (by simp)
    · cases hv
  · intro pre a post w w' hI hp
    rcases errorPred_cases hp with ⟨hv, -⟩ | ⟨hv, -⟩ | ⟨-, ht, rfl⟩
    · cases hv
    · cases hv
    · refine hI.tail ?_
      rw [List.append_assoc, List.cons_append]
      exact .fail _ _ ⟨_, ht⟩

theorem send_moves (node : Nat) (addr : Address) (payload : Payload) (env : SendEnv) (tail : List Host) :
    Moves False env.Throws ⟨s.hosts ++ tail, s.world, s.nodes⟩
      ⟨(s.send node addr payload env).hosts ++ tail, (s.send node addr payload env).world,
        (s.send node addr payload env).nodes⟩ := by
  rcases send_cases s node addr payload env with hsend | ⟨-, hsend⟩ | ⟨code, w, -, rfl, hsend⟩ <;> rw [hsend]
  · exact .single (.sent _)
  · exact Relation.ReflTransGen.head (.sent _) (errorSweep_moves env tail)

/-- A send error unlinks hosts with the identifier of the host that sends, and no others. -/
theorem send_hosts (node : Nat) (addr : Address) (payload : Payload) (env : SendEnv) :
    (s.send node addr payload env).hosts.Sublist s.hosts ∧
      ∀ x ∈ s.hosts, x.id ≠ payload.id → x ∈ (s.send node addr payload env).hosts := by
  rcases send_cases s node addr payload env with hsend | ⟨-, hsend⟩ | ⟨code, w, -, -, hsend⟩ <;> rw [hsend]
  · exact ⟨.refl _, fun x hx _ => hx⟩
  · exact ⟨.refl _, fun x hx _ => hx⟩
  · refine ⟨sweep_sublist _ _ _, fun x hx hid => mem_sweep _ (fun w => ?_) hx _⟩
    simp [errorPred, Host.onError, Ne.symm hid]

theorem send_hosts_of_none {node : Nat} {addr : Address} {payload : Payload} {env : SendEnv} (herrno : env.errno = none) :
    (s.send node addr payload env).hosts = s.hosts := by
  rcases send_cases s node addr payload env with hsend | ⟨-, hsend⟩ | ⟨code, w, hcode, -, -⟩
  · rw [hsend]
  · rw [hsend]
  · rw [herrno] at hcode
    cases hcode

theorem send_world_of_none {node : Nat} {addr : Address} {payload : Payload} {env : SendEnv} (herrno : env.errno = none) :
    ∃ sent, (s.send node addr payload env).world = { s.world with sent } := by
  rcases send_cases s node addr payload env with hsend | ⟨-, hsend⟩ | ⟨code, w, hcode, -, -⟩
  · exact ⟨_, by rw [hsend]⟩
  · exact ⟨_, by rw [hsend]⟩
  · rw [herrno] at hcode
    cases hcode

theorem send_frame (s : Controller) (node : Nat) (addr : Address) (payload : Payload) (env : SendEnv) :
    (s.send node addr payload env).fd = s.fd ∧ (s.send node addr payload env).nodes = s.nodes ∧
      (s.send node addr payload env).timer = s.timer := by
  rcases send_cases s node addr payload env with
      hsend | ⟨-, hsend⟩ | ⟨code, w, -, -, hsend⟩ <;> rw [hsend] <;> exact ⟨rfl, rfl, rfl⟩

theorem errorSweep_sent (code : Nat) (payload : Payload) (throws : Nat → Bool) (hosts : List Host) (w : World) :
    (sweep (errorPred code payload throws) hosts w).2.1.sent = w.sent :=
  sweep_keeps _ World.sent (fun h w w' v hp => by
    rcases errorPred_cases hp with ⟨-, rfl⟩ | ⟨-, -, -, rfl⟩ | ⟨-, -, rfl⟩ <;> rfl) hosts w

theorem send_packets (s : Controller) (node : Nat) (addr : Address) (payload : Payload) (env : SendEnv) :
    (s.send node addr payload env).world.sent = s.world.sent ∨
      (s.send node addr payload env).world.sent = s.world.sent ++ [⟨node, s.seq + 1, payload⟩] := by
  rcases send_cases s node addr payload env with hsend | ⟨-, hsend⟩ | ⟨code, w, -, rfl, hsend⟩ <;> rw [hsend]
  · exact Or.inl rfl
  · exact Or.inr rfl
  · exact Or.inr (errorSweep_sent _ _ _ _ _)

theorem store_of_fresh {h : Host} (hf : ∀ x ∈ s.hosts, x.node ≠ h.node) : s.store h = s := by
  have : s.hosts.map (fun x => if x.node = h.node then h else x) = s.hosts := by
    conv_rhs => rw [← List.map_id s.hosts]
    exact List.map_congr_left fun x hx => if_neg (hf x hx)
  simp only [Controller.store, this]

theorem map_store {h : Host} {pre post : List Host} (hn : ((pre ++ h :: post).map (·.node)).Nodup) (next : Int)
    (packets : UInt16) :
    (pre ++ h :: post).map (fun x => if x.node = h.node then { h with next, packets } else x) =
      pre ++ { h with next, packets } :: post := by
  obtain ⟨hpre, hpost⟩ := node_ne_of_middle hn
  have same : ∀ l : List Host, (∀ x ∈ l, x.node ≠ h.node) →
      l.map (fun x => if x.node = h.node then { h with next, packets } else x) = l := fun l hl => by
    conv_rhs => rw [← List.map_id l]
    exact List.map_congr_left fun x hx => if_neg (hl x hx)
  rw [List.map_append, List.map_cons, if_pos rfl, same pre hpre, same post hpost]

theorem store_of_mem {h : Host} {pre post : List Host} (hs : Numbered s.view) (he : s.hosts = pre ++ h :: post)
    (next : Int) (packets : UInt16) :
    (s.store { h with next, packets }).hosts = pre ++ { h with next, packets } :: post := by
  have hnodup : (s.hosts.map (·.node)).Nodup := hs.nodup
  simp only [Controller.store, he]
  exact map_store (he ▸ hnodup) next packets

theorem hostSend_moves {h : Host} (hs : Numbered s.view) (hh : h ∈ s.hosts) (env : SendEnv) :
    Moves False env.Throws s.view (s.hostSend h env).1.view := by
  obtain ⟨pre, post, he⟩ := List.append_of_mem hh
  have hstore : Moves False env.Throws s.view
      (s.store { h with next := env.time + (s.world.workers h.worker).interval,
                        packets := h.packets + 1 }).view := by
    refine .single ?_
    unfold Controller.view
    rw [store_of_mem hs he, he]
    exact .count _ _
  refine hstore.trans ?_
  simpa [Controller.hostSend, Controller.view] using send_moves h.node _ _ env []

end Send

/-! ## Calls -/

section Calls
variable {s t : Controller}

@[simp] theorem view_stop : s.stop.view = s.view := rfl

@[simp] theorem view_stopIfEmpty : s.stopIfEmpty.view = s.view := by
  unfold stopIfEmpty
  split <;> rfl

theorem openSocket_view (env : StartEnv) : (s.openSocket env).1.view = s.view := by
  unfold openSocket
  split
  · split <;> rfl
  · rfl

theorem start_view {env : StartEnv} (ht : (s.start env).state? = some t) : t.view = s.view := by
  have ho := openSocket_view (s := s) env
  unfold Controller.start at ht
  split at ht <;> rename_i u hu <;> rw [hu] at ho <;> cases ht <;> exact ho

theorem start_ok_iff {e : StartEnv} : (∃ u, s.start e = .ok u) ↔ (s.openSocket e).2 = true := by
  unfold Controller.start
  split <;> rename_i heq <;> simp [heq]

theorem openSocket_id (s : Controller) (e : StartEnv) : (s.openSocket e).1.id = s.id := by
  unfold openSocket
  split
  · split <;> rfl
  · rfl

theorem start_id {e : StartEnv} (ht : (s.start e).state? = some t) : t.id = s.id := by
  have ho := openSocket_id s e
  unfold Controller.start at ht
  split at ht <;> rename_i u hu <;> rw [hu] at ho <;> cases ht <;> exact ho

/-- An insertion that throws leaves hosts and workers as they are; one that returns adds a host. -/
theorem insert_cases (s : Controller) (w : WorkerId) (env : InsertEnv) :
    (∃ t, s.insert w env = .threw t ∧ t.view = s.view ∧ t.id = s.id) ∨
    (∃ t, s.insert w env = .ok t ∧ s.world.busy w = false ∧ ∃ u, s.start env.start = .ok u ∧
      t = { u with world := u.world.setBusy w true }.emplaceBack w env) := by
  unfold Controller.insert
  split
  · exact Or.inl ⟨s, rfl, rfl, rfl⟩
  · rename_i hb
    have hb : s.world.busy w = false := by simpa using hb
    cases hstart : s.start env.start with
    | ok u => exact Or.inr ⟨_, rfl, hb, u, rfl, rfl⟩
    | threw u => exact Or.inl ⟨u, rfl, start_view (by rw [hstart]; rfl), start_id (by rw [hstart]; rfl)⟩
    | undefined =>
      unfold Controller.start at hstart
      split at hstart <;> cases hstart

/-- The host of an insertion, after its first packet. -/
def Controller.newHost (s : Controller) (w : WorkerId) (env : InsertEnv) : Host where
  node := s.nodes
  worker := w
  id := s.id
  timeout := env.time + (s.world.workers w).interval
  packets := 1
  next := env.send.time + (s.world.workers w).interval

/-- The controller of an insertion, after the first packet of the host. -/
def Controller.afterFirst (s : Controller) (w : WorkerId) (env : InsertEnv) : Controller :=
  { s with id := s.id + 1, nodes := s.nodes + 1, world := s.world.record (.inserted s.nodes w) }.send s.nodes
    (s.world.workers w).addr { id := s.id, seq := 1, time := getCurrentTime env.send.clock } env.send

/-- Nothing in the call looks at the host that is not in the list yet. -/
theorem emplaceBack_eq {w : WorkerId} {env : InsertEnv} (hf : ∀ x ∈ s.hosts, x.node ≠ s.nodes) :
    s.emplaceBack w env = { s.afterFirst w env with hosts := (s.afterFirst w env).hosts ++ [s.newHost w env] } := by
  unfold Controller.emplaceBack Controller.hostSend
  dsimp only
  rw [store_of_fresh (by exact hf)]
  rfl

theorem emplaceBack_moves {w : WorkerId} {env : InsertEnv} (hs : Numbered s.view)
    (hb : s.world.busy w = false) :
    Moves False env.send.Throws s.view
      ({ s with world := s.world.setBusy w true }.emplaceBack w env).view := by
  have hfresh : ∀ x ∈ s.hosts, x.node ≠ s.nodes := fun x hx => Nat.ne_of_lt (hs.lt x hx)
  rw [emplaceBack_eq (by exact hfresh)]
  -- The host is counted as a member of the list from the start.
  refine Relation.ReflTransGen.head ?_ (send_moves _ _ _ env.send [_])
  exact .insert rfl rfl hb

theorem insert_moves {w : WorkerId} {env : InsertEnv} (hs : Numbered s.view)
    (ht : (s.insert w env).state? = some t) : Moves False env.send.Throws s.view t.view := by
  rcases insert_cases s w env with ⟨u, hu, hv, -⟩ | ⟨u, hu, hb, s₁, hs₁, rfl⟩
  · rw [hu] at ht
    cases ht
    rw [hv]
  · rw [hu] at ht
    cases ht
    have hv : s₁.view = s.view := start_view (by rw [hs₁]; rfl)
    have hb₁ : s₁.world.busy w = false := by
      rw [show s₁.world = s.world from congrArg View.world hv]
      exact hb
    rw [← hv] at hs ⊢
    exact emplaceBack_moves hs hb₁

theorem remove_moves (w : WorkerId) : Moves False False s.view (s.remove w).view := by
  unfold Controller.remove
  dsimp only
  rw [view_stopIfEmpty]
  refine sweep_induct _ (I := fun l w' => Moves False False s.view ⟨l, w', s.nodes⟩) ?_ ?_ ?_ .refl
  · intro pre a post w w' hI hp
    rcases removePred_cases hp with ⟨-, -, rfl⟩ | ⟨hv, -⟩
    · exact hI
    · cases hv
  · intro pre a post w w' hI hp
    rcases removePred_cases hp with ⟨hv, -⟩ | ⟨-, -, rfl⟩
    · cases hv
    · exact hI.tail .remove
  · intro pre a post w w' hI hp
    rcases removePred_cases hp with ⟨hv, -⟩ | ⟨hv, -⟩ <;> cases hv

theorem handleEvent_moves (oninput : Bool) (recv : Recv) (now : Nat → Timespec) :
    Moves (s.Loses (.handleEvent oninput recv now)) False s.view (s.handleEvent oninput recv now).view := by
  unfold Controller.handleEvent
  split
  · split
    · exact .refl
    · rename_i ho _ packet addr hacc
      subst ho
      -- The hosts a pass meets are hosts of the list it began with.
      refine (sweep_induct _ (I := fun l w' => (∀ x ∈ l, x ∈ s.hosts) ∧
        Moves (s.Loses (.handleEvent true recv now)) False s.view ⟨l, w', s.nodes⟩) ?_ ?_ ?_
          ⟨fun _ hx => hx, .refl⟩).2
      · intro pre a post w w' hI hp
        rcases responsePred_cases hp with ⟨-, rfl⟩ | ⟨hv, -⟩
        · exact hI
        · cases hv
      · rintro pre a post w w' ⟨hmem, hI⟩ hp
        refine ⟨fun x hx => hmem x (by simp at hx ⊢; tauto), ?_⟩
        rcases responsePred_cases hp with ⟨hv, -⟩ | ⟨-, hid, ⟨time, rfl⟩ | ⟨r, hr, rfl⟩ | ⟨hu, rfl⟩⟩
        · cases hv
        · exact (hI.tail (.time a.worker time)).tail (.answer _ (by simp))
        · exact hI.tail (.answer _ hr)
        · exact hI.tail (.lose ⟨packet, addr, hacc, hu, a, hmem a (by simp), hid⟩)
      · intro pre a post w w' hI hp
        rcases responsePred_cases hp with ⟨hv, -⟩ | ⟨hv, -⟩ <;> cases hv
  · exact .refl

/-! ### The timer -/

theorem onTimer_cases {h : Host} {env : TimerEnv} {b : Option Bool} (hp : s.onTimer h env = (t, b)) :
    (b = some false ∧ env.now > h.timeout ∧ t = { s with world := s.world.set h .timeout .empty }) ∨
    (b = none ∧ env.send.Throws ∧ t = { s with world := s.world.set h .timeout .empty }) ∨
    (b = some true ∧ (t = (s.hostSend h env.send).1 ∨ t = s)) := by
  unfold Controller.onTimer at hp
  split_ifs at hp with hnow hthrows hnext <;> cases hp
  · exact Or.inr (Or.inl ⟨rfl, ⟨_, hthrows⟩, rfl⟩)
  · exact Or.inl ⟨rfl, hnow, rfl⟩
  · exact Or.inr (Or.inr ⟨rfl, Or.inl rfl⟩)
  · exact Or.inr (Or.inr ⟨rfl, Or.inr rfl⟩)

/-- What the predicate of the pass does with the host in a node: nothing, when it is gone or nothing is due, a result
    for its worker, which may throw, or a packet. -/
theorem timerPred_cases {env : Nat → TimerEnv} {n : Nat} {v : Verdict} (hp : timerPred env n s = (t, v)) :
    (v = .keep ∧ t = s) ∨ ∃ h ∈ s.hosts, h.node = n ∧
      ((v = .drop ∧ t = { s with world := (s.world.set h .timeout .empty).setBusy h.worker false }) ∨
        (v = .raise ∧ (env n).send.Throws ∧ t = { s with world := s.world.set h .timeout .empty }) ∨
        (v = .keep ∧ t = (s.hostSend h (env n).send).1)) := by
  unfold timerPred at hp
  split at hp
  · cases hp
    exact Or.inl ⟨rfl, rfl⟩
  · rename_i h hfind
    have hh : h ∈ s.hosts := List.mem_of_find?_eq_some hfind
    have hn : h.node = n := by simpa using List.find?_some hfind
    rcases ht : s.onTimer h (env n) with ⟨u, b⟩
    rw [ht] at hp
    rcases onTimer_cases ht with ⟨rfl, -, rfl⟩ | ⟨rfl, hthrows, rfl⟩ | ⟨rfl, rfl | rfl⟩ <;> cases hp
    · exact Or.inr ⟨h, hh, hn, Or.inl ⟨rfl, rfl⟩⟩
    · exact Or.inr ⟨h, hh, hn, Or.inr (Or.inl ⟨rfl, hthrows, rfl⟩)⟩
    · exact Or.inr ⟨h, hh, hn, Or.inr (Or.inr ⟨rfl, rfl⟩)⟩
    · exact Or.inl ⟨rfl, rfl⟩

/-- What every call of the predicate keeps, with the unlinking that follows it, and `stop` after the last host, holds
    after the callback. -/
theorem timerTask_induct {env : Nat → TimerEnv} {I : Controller → Prop}
    (hpred : ∀ n u u' v, I u → timerPred env n u = (u', v) → I (if v = .drop then unlink n u' else u'))
    (hstop : ∀ u, I u → I u.stopIfEmpty) (hs : I s) (ht : (s.timerTask env).state? = some t) : I t := by
  have pass : ∀ {u : Controller}, (removeIf nodeList unlink (timerPred env) s.nodeList s).state? = some u → I u :=
    fun {u} hu => by
    refine removeIf_induct ?_ ?_ ?_ hs hu <;> intro k u u' hI _ hp
    · exact hpred k u u' _ hI hp
    · exact hpred k u u' _ hI hp
    · exact hpred k u u' _ hI hp
  unfold Controller.timerTask at ht
  split at ht
  · rename_i u hu
    cases ht
    exact hstop u (pass (by rw [hu]; rfl))
  · exact pass ht

theorem timerPred_moves {env : Nat → TimerEnv} {n : Nat} {v : Verdict} (hs : Numbered s.view)
    (hp : timerPred env n s = (t, v)) :
    Moves False (∃ n, (env n).send.Throws) s.view (if v = .drop then unlink n t else t).view := by
  rcases timerPred_cases hp with ⟨rfl, rfl⟩ | ⟨h, hh, rfl, ⟨rfl, rfl⟩ | ⟨rfl, hthrows, rfl⟩ | ⟨rfl, rfl⟩⟩
  · exact .refl
  · obtain ⟨pre, post, he⟩ := List.append_of_mem hh
    have hnodup : (s.hosts.map (·.node)).Nodup := hs.nodup
    have hf := filter_node_ne (he ▸ hnodup)
    refine .single ?_
    simp only [if_true, unlink, Controller.view, he, hf]
    exact .answer _ (by simp)
  · obtain ⟨pre, post, he⟩ := List.append_of_mem hh
    refine .single ?_
    simp only [Controller.view, he, reduceCtorEq, if_false]
    exact .fail _ _ ⟨_, hthrows⟩
  · exact (hostSend_moves hs hh _).mono id fun ht => ⟨_, ht⟩

theorem timerTask_moves {env : Nat → TimerEnv} (hs : Numbered s.view)
    (ht : (s.timerTask env).state? = some t) : Moves False (∃ n, (env n).send.Throws) s.view t.view :=
  timerTask_induct (I := fun u => Moves False (∃ n, (env n).send.Throws) s.view u.view)
    (fun _ _ _ _ hI hp => hI.trans (timerPred_moves (hs.moves hI) hp))
    (fun _ hI => by rwa [view_stopIfEmpty]) .refl ht

/-! ### Steps -/

theorem step_moves {i : Input} (hs : Numbered s.view) (ht : s.step i = some t) :
    Moves (s.Loses i) i.Throws s.view t.view := by
  cases i with
  | insert w env => exact (insert_moves hs ht).mono False.elim id
  | remove w =>
    cases ht
    exact (remove_moves w).mono False.elim False.elim
  | onTimer =>
    cases ht
    split <;> exact .refl
  | task env =>
    change (if s.queued = 0 then some s else _) = some t at ht
    split at ht
    · cases ht
      exact .refl
    · exact (timerTask_moves (s := { s with queued := s.queued - 1 }) hs ht).mono False.elim id
  | handleEvent oninput recv now =>
    cases ht
    exact (handleEvent_moves oninput recv now).mono id False.elim
  | address w addr =>
    cases ht
    exact .single (.address w addr)

theorem numbered_init (pid : Nat) (workers : WorkerId → Worker) : Numbered (init pid workers).view :=
  ⟨List.nodup_nil, fun _ hx => by cases hx⟩

theorem step_numbered {i : Input} (hs : Numbered s.view) (ht : s.step i = some t) : Numbered t.view :=
  hs.moves (step_moves hs ht)

end Calls
end UdjatNetwork.Icmp
