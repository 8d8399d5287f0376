import UdjatNetwork.Theorems.Results

/-! # Echo replies

A host takes an echo reply by the identifier in its payload. Nothing compares the source of the packet with the
address of the worker, or the number in its payload with those of the packets sent. -/

namespace UdjatNetwork.Icmp
open Pass Machine Controller

variable {s t : Controller}

def Event.isEchoReply : Event → Bool
  | set _ _ .echoReply _ => true
  | _ => false

def World.replies (w : World) : List Event := w.log.filter (·.isEchoReply)

/-- What an echo reply tells the workers: each host with its identifier gets the source of the packet. -/
def Controller.answered (s : Controller) : Input → List Event
  | .handleEvent true recv _ =>
    match accepted s.pid recv with
    | some (packet, addr) =>
      if packet.type = ICMP_ECHOREPLY then
        (s.hosts.filter fun h => decide (packet.payload.id = h.id)).map fun h => .set h.node h.worker .echoReply addr
      else []
    | none => []
  | _ => []

/-- Who gets an echo reply gets the IPv4 address it has, and by the number of a packet sent for its host. -/
def Controller.Genuine (s : Controller) : Input → Prop
  | .handleEvent true recv now => ∀ packet addr, accepted s.pid recv = some (packet, addr) →
      ∀ n w a, .set n w .echoReply a ∈ (s.handleEvent true recv now).world.log.drop s.world.log.length →
        a = (s.world.workers w).addr ∧ (∃ b, a = .inet b) ∧
        ∃ p ∈ s.world.sent, p.node = n ∧ p.payload.seq = packet.payload.seq
  | _ => True

/-! ### Steps without a packet -/

theorem replies_record {e : Event} (he : e.isEchoReply = false) (w : World) : (w.record e).replies = w.replies := by
  unfold World.replies
  rw [World.log_record, List.filter_append, List.filter_singleton, he]
  exact List.append_nil _

theorem send_replies (s : Controller) (node : Nat) (addr : Address) (payload : Payload) (env : SendEnv) :
    (s.send node addr payload env).world.replies = s.world.replies := by
  rcases send_cases s node addr payload env with hsend | ⟨-, hsend⟩ | ⟨code, w, -, rfl, hsend⟩ <;> rw [hsend]
  · rfl
  · refine sweep_keeps _ World.replies (fun h w w' v hp => ?_) s.hosts _
    rcases errorPred_cases hp with ⟨-, rfl⟩ | ⟨-, -, -, rfl⟩ | ⟨-, -, rfl⟩
    · rfl
    · exact replies_record (e := .set h.node h.worker .networkUnreachable .empty) rfl w
    · exact replies_record (e := .set h.node h.worker .networkUnreachable .empty) rfl w

theorem hostSend_replies (s : Controller) (h : Host) (env : SendEnv) :
    (s.hostSend h env).1.world.replies = s.world.replies :=
  send_replies _ _ _ _ _

theorem insert_replies {w : WorkerId} {env : InsertEnv} (ht : (s.insert w env).state? = some t) :
    t.world.replies = s.world.replies := by
  rcases insert_cases s w env with ⟨u, hu, hview, -⟩ | ⟨u, hu, -, v, hv, rfl⟩ <;> rw [hu] at ht <;> cases ht
  · rw [show t.world = s.world from congrArg View.world hview]
  · have hworld : v.world = s.world := congrArg View.world (start_view (by rw [hv]; rfl))
    refine (hostSend_replies _ _ _).trans ?_
    rw [← hworld]
    exact replies_record (e := .inserted v.nodes w) rfl _

theorem remove_replies (s : Controller) (w : WorkerId) : (s.remove w).world.replies = s.world.replies := by
  have hpass : (sweep (removePred w) s.hosts s.world).2.1.replies = s.world.replies := by
    refine sweep_keeps _ World.replies (fun h u u' v hp => ?_) _ _
    rcases removePred_cases hp with ⟨-, -, rfl⟩ | ⟨-, -, rfl⟩
    · rfl
    · exact replies_record (e := .removed h.node h.worker) rfl _
  have hworld : (s.remove w).world = (sweep (removePred w) s.hosts s.world).2.1 := congrArg View.world view_stopIfEmpty
  rw [hworld, hpass]

theorem timerPred_replies {env : Nat → TimerEnv} {n : Nat} {v : Verdict} (hp : timerPred env n s = (t, v)) :
    t.world.replies = s.world.replies := by
  have htimeout : ∀ h : Host, (s.world.set h .timeout .empty).replies = s.world.replies := fun h =>
    replies_record (e := .set h.node h.worker .timeout .empty) rfl _
  rcases timerPred_cases hp with ⟨-, rfl⟩ | ⟨h, -, -, ⟨-, rfl⟩ | ⟨-, -, rfl⟩ | ⟨-, rfl⟩⟩
  · rfl
  · exact htimeout h
  · exact htimeout h
  · exact hostSend_replies s h _

theorem timerTask_replies {env : Nat → TimerEnv} (ht : (s.timerTask env).state? = some t) :
    t.world.replies = s.world.replies := by
  refine timerTask_induct (I := fun u => u.world.replies = s.world.replies) (fun n u u' v hI hp => ?_)
    (fun u hI => ?_) rfl ht
  · split_ifs <;> exact (timerPred_replies hp).trans hI
  · rwa [show u.stopIfEmpty.world = u.world from congrArg View.world view_stopIfEmpty]

/-! ### Packets -/

section Packets
variable {packet : Packet} {addr : Address} {recv : Recv}

theorem onResponse_replies (addr : Address) {h : Host} (hid : packet.payload.id = h.id) (now : Timespec) (w : World) :
    (h.onResponse packet.type addr packet.payload now w).1.replies =
      w.replies ++ if packet.type = ICMP_ECHOREPLY then [.set h.node h.worker .echoReply addr] else [] := by
  unfold Host.onResponse
  rw [if_neg (not_not.mpr hid)]
  by_cases h0 : packet.type = ICMP_ECHOREPLY
  · rw [if_pos h0, h0, if_neg (by decide), if_pos rfl]
    exact List.filter_append _ _
  · rw [if_neg h0, if_neg h0, List.append_nil]
    split_ifs
    · rfl
    · exact replies_record (e := .set h.node h.worker .destinationUnreachable addr) rfl w
    · exact replies_record (e := .set h.node h.worker .timeExceeded addr) rfl w
    · rfl

/-- What the visits of the hosts with the identifier of the packet bring. -/
theorem foldl_replies {l : List Host} (hl : ∀ h ∈ l, packet.payload.id = h.id) (now : Nat → Timespec) (w : World) :
    (l.foldl (fun w h => (h.onResponse packet.type addr packet.payload (now h.node) w).1.setBusy h.worker false) w).replies =
      w.replies ++ if packet.type = ICMP_ECHOREPLY then l.map fun h => .set h.node h.worker .echoReply addr else [] := by
  induction l generalizing w with
  | nil => simp
  | cons h l ih =>
    have hfirst := onResponse_replies addr (hl h List.mem_cons_self) (now h.node) w
    rw [List.foldl_cons, ih fun x hx => hl x (List.mem_cons_of_mem h hx)]
    change (h.onResponse packet.type addr packet.payload (now h.node) w).1.replies ++ _ = _
    rw [hfirst]
    split_ifs <;> simp

theorem handleEvent_replies (hacc : accepted s.pid recv = some (packet, addr)) (now : Nat → Timespec) :
    (s.handleEvent true recv now).world.replies = s.world.replies ++ s.answered (.handleEvent true recv now) := by
  have hmeets : ∀ h ∈ s.hosts.filter fun h => packet.meets h, packet.payload.id = h.id := fun h hh => by
    have hh : packet.meets h = true := (List.mem_filter.mp hh).2
    simp only [Packet.meets, Bool.and_eq_true, decide_eq_true_eq] at hh
    exact hh.1
  rw [handleEvent_eq hacc]
  unfold Controller.answered
  simp only [hacc]
  rw [foldl_replies hmeets]
  by_cases h0 : packet.type = ICMP_ECHOREPLY
  · have hfilter : (fun h => packet.meets h) = fun h : Host => decide (packet.payload.id = h.id) := by
      funext h
      simp [Packet.meets, h0, ICMP_ECHOREPLY, ICMP_ECHO]
    rw [if_pos h0, if_pos h0, hfilter]
  · rw [if_neg h0, if_neg h0]

end Packets

/-! ### Runs -/

theorem step_replies {i : Input} (ht : s.step i = some t) : t.world.replies = s.world.replies ++ s.answered i := by
  have quiet : t.world.replies = s.world.replies → s.answered i = [] →
      t.world.replies = s.world.replies ++ s.answered i := fun hreplies hnone => by
    rw [hreplies, hnone, List.append_nil]
  cases i with
  | insert w env => exact quiet (insert_replies ht) rfl
  | remove w =>
    cases ht
    exact quiet (remove_replies s w) rfl
  | onTimer =>
    cases ht
    refine quiet ?_ rfl
    split <;> rfl
  | task env =>
    refine quiet ?_ rfl
    change (if s.queued = 0 then some s else _) = some t at ht
    split at ht
    · cases ht
      rfl
    · exact timerTask_replies (s := { s with queued := s.queued - 1 }) ht
  | handleEvent oninput recv now =>
    cases ht
    cases oninput with
    | false => exact quiet rfl rfl
    | true =>
      cases hacc : accepted s.pid recv with
      | none =>
        refine quiet ?_ ?_
        · unfold Controller.handleEvent
          simp only [if_true, hacc]
        · unfold Controller.answered
          simp only [hacc]
      | some p => exact handleEvent_replies hacc now
  | address w addr =>
    cases ht
    exact quiet rfl rfl

/-- All along a run, a step brings echo replies only when it accepts a packet of that type: one for each host of the
    list with the identifier in its payload, from the source of the packet. --/
theorem echo_replies (pid : Nat) (workers : WorkerId → Worker) (is : List Input) :
    Along step (fun s i => ∀ t, s.step i = some t → t.world.replies = s.world.replies ++ s.answered i)
      (init pid workers) is :=
  (along_of_forall (C := fun _ => True) fun _ _ => trivial).mono fun _ _ _ _ ht => step_replies ht

/-- A reply from 10.0.0.1 with the number 99 answers the first packet, sent to 127.0.0.1. --/
theorem reply_misdirected :
    ¬ ∀ (pid : Nat) (workers : WorkerId → Worker) (is : List Input), Along step Genuine (init pid workers) is := by
  intro h
  let packet : Packet := { type := 0, id := htons 1, payload := { id := 0, seq := 99 } }
  let recv : Recv := .datagram (List.replicate 20 0 ++ packet.bytes) (.inet 0x0100000A)
  let s := init 1 fun _ => { addr := .inet 0x0100007F }
  let e : InsertEnv := { start := { socket := some 7 } }
  obtain ⟨t, ht⟩ : ∃ t, step s (.insert 0 e) = some t := ⟨_, rfl⟩
  have hrun : (exec step s [.insert 0 e]).map (fun t => ((t.world.workers 0).addr, t.world.sent.map (·.payload.seq),
      accepted t.pid recv, (t.handleEvent true recv fun _ => {}).world.log.drop t.world.log.length)) =
      some (.inet 0x0100007F, [1], some (packet, .inet 0x0100000A), [.set 0 0 .echoReply (.inet 0x0100000A)]) := by
    decide
  simp only [exec, ht, Option.bind_some, Option.map_some, Option.some.injEq, Prod.mk.injEq] at hrun
  obtain ⟨haddr, -, hacc, hlog⟩ := hrun
  have hgenuine : Genuine t (.handleEvent true recv fun _ => {}) :=
    ((h 1 _ [.insert 0 e, .handleEvent true recv fun _ => {}]).2 t ht).1
  obtain ⟨ha, -⟩ := hgenuine packet _ hacc 0 0 (.inet 0x0100000A) (by rw [hlog]; exact List.mem_singleton_self _)
  rw [haddr] at ha
  cases ha

end UdjatNetwork.Icmp
