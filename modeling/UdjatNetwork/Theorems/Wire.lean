import UdjatNetwork.Theorems.Checksum
import UdjatNetwork.Theorems.EchoReply
import UdjatNetwork.Theorems.Identifiers
import UdjatNetwork.Theorems.Insertions

/-! # Packets on the wire

All that a controller sends in a run are echo requests of hosts that were inserted, with a good checksum, numbered one
after the other; and the controller reads them as it wrote them. -/

namespace UdjatNetwork.Icmp
open Pass Machine Controller

variable {s t : Controller}

/-- The packet that was sent, in bytes. -/
def Controller.wire (s : Controller) (p : Sent) : List UInt8 := (echoRequest s.pid p.seq p.payload).bytes

/-- What is right about a packet, of which `k` others were sent before. -/
structure OnWire (s : Controller) (k : Nat) (p : Sent) : Prop where
  seq : p.seq = UInt16.ofNat (k + 1)
  id : p.payload.id = UInt16.ofNat p.node
  inserted : ∃ w, .inserted p.node w ∈ s.world.log
  sum : AllOnes (s.wire p)
  back : ∀ header : List UInt8, header.length = sizeofIphdr → ∀ source,
    accepted s.pid (.datagram (header ++ s.wire p) source) = some (echoRequest s.pid p.seq p.payload, source)

/-- The counter of the packets is the number of those that were sent, and each has its number. -/
structure Sequenced (s : Controller) : Prop where
  next : s.seq = UInt16.ofNat s.world.sent.length
  sent : ∀ k p, s.world.sent[k]? = some p → p.seq = UInt16.ofNat (k + 1)

/-! ### The counter -/

theorem sequenced_init (pid : Nat) (workers : WorkerId → Worker) : Sequenced (init pid workers) :=
  ⟨rfl, fun _ _ hp => by cases hp⟩

/-- A step that sends nothing. -/
theorem Sequenced.quiet (hs : Sequenced s) (hseq : t.seq = s.seq) (hsent : t.world.sent = s.world.sent) : Sequenced t where
  next := by rw [hseq, hsent, hs.next]
  sent := fun k p hp => hs.sent k p (hsent ▸ hp)

theorem Sequenced.packet (hs : Sequenced s) {node : Nat} {payload : Payload} (hseq : t.seq = s.seq + 1)
    (hsent : t.world.sent = s.world.sent ++ [⟨node, s.seq + 1, payload⟩]) : Sequenced t := by
  have hnext : s.seq + 1 = UInt16.ofNat (s.world.sent.length + 1) := by
    rw [hs.next, UInt16.ofNat_add]
    rfl
  refine ⟨by rw [hseq, hsent, List.length_append]; exact hnext, fun k p hp => ?_⟩
  rw [hsent] at hp
  rcases Nat.lt_or_ge k s.world.sent.length with hk | hk
  · rw [List.getElem?_append_left hk] at hp
    exact hs.sent k p hp
  · rw [List.getElem?_append_right hk, List.getElem?_singleton] at hp
    split_ifs at hp with h0
    obtain rfl : k = s.world.sent.length := by omega
    cases hp
    exact hnext

theorem send_sequenced (hs : Sequenced s) (node : Nat) (addr : Address) (payload : Payload) (e : SendEnv) :
    Sequenced (s.send node addr payload e) := by
  rcases send_cases s node addr payload e with hsend | ⟨-, hsend⟩ | ⟨code, w, -, rfl, hsend⟩ <;> rw [hsend]
  · exact hs
  · exact hs.packet rfl rfl
  · exact hs.packet rfl (errorSweep_sent _ _ _ _ _)

theorem hostSend_sequenced (hs : Sequenced s) (h : Host) (e : SendEnv) : Sequenced (s.hostSend h e).1 :=
  send_sequenced (s := s.store _) ⟨hs.next, hs.sent⟩ _ _ _ e

theorem emplaceBack_sequenced (hs : Sequenced s) (w : WorkerId) (e : InsertEnv) : Sequenced (s.emplaceBack w e) :=
  have hnext : Sequenced { s with
      id := s.id + 1, nodes := s.nodes + 1, world := s.world.record (.inserted s.nodes w) } := ⟨hs.next, hs.sent⟩
  (hostSend_sequenced hnext _ e.send).quiet rfl rfl

theorem start_seq {e : StartEnv} (ht : (s.start e).state? = some t) : t.seq = s.seq := by
  have ho : (s.openSocket e).1.seq = s.seq := by
    unfold openSocket
    split
    · split <;> rfl
    · rfl
  unfold Controller.start at ht
  split at ht <;> rename_i u hu <;> rw [hu] at ho <;> cases ht <;> exact ho

theorem stopIfEmpty_sequenced (hs : Sequenced s) : Sequenced s.stopIfEmpty := by
  unfold stopIfEmpty
  split
  · exact ⟨hs.next, hs.sent⟩
  · exact hs

theorem insert_sequenced {w : WorkerId} {e : InsertEnv} (hs : Sequenced s) (ht : (s.insert w e).state? = some t) :
    Sequenced t := by
  have started : ∀ {u : Controller}, (s.start e.start).state? = some u → Sequenced u := fun {u} hu =>
    hs.quiet (start_seq hu) (congrArg (fun v : View => v.world.sent) (start_view hu))
  unfold Controller.insert at ht
  split at ht
  · cases ht
    exact hs
  · split at ht
    · rename_i u hu
      cases ht
      have hu : Sequenced u := started (by rw [hu]; rfl)
      have hbusy : Sequenced { u with world := u.world.setBusy w true } := ⟨hu.next, hu.sent⟩
      exact emplaceBack_sequenced hbusy w e
    · exact started ht

theorem timerTask_sequenced {env : Nat → TimerEnv} (hs : Sequenced s) (ht : (s.timerTask env).state? = some t) :
    Sequenced t := by
  refine timerTask_induct (fun n u u' v hI hp => ?_) (fun u hI => stopIfEmpty_sequenced hI) hs ht
  have hu : Sequenced u' := by
    rcases timerPred_cases hp with ⟨-, rfl⟩ | ⟨h, -, -, ⟨-, rfl⟩ | ⟨-, -, rfl⟩ | ⟨-, rfl⟩⟩
    · exact hI
    · exact ⟨hI.next, hI.sent⟩
    · exact ⟨hI.next, hI.sent⟩
    · exact hostSend_sequenced hI h _
  split_ifs
  · exact ⟨hu.next, hu.sent⟩
  · exact hu

theorem step_sequenced {i : Input} (hs : Sequenced s) (ht : s.step i = some t) : Sequenced t := by
  cases i with
  | insert w e => exact insert_sequenced hs ht
  | remove w =>
    cases ht
    refine stopIfEmpty_sequenced (hs.quiet rfl (sweep_keeps _ World.sent (fun h u u' v hp => ?_) _ _))
    rcases removePred_cases hp with ⟨-, -, rfl⟩ | ⟨-, -, rfl⟩ <;> rfl
  | onTimer =>
    cases ht
    split
    · exact ⟨hs.next, hs.sent⟩
    · exact hs
  | task env =>
    change (if s.queued = 0 then some s else _) = some t at ht
    split at ht
    · cases ht
      exact hs
    · exact timerTask_sequenced (s := { s with queued := s.queued - 1 }) ⟨hs.next, hs.sent⟩ ht
  | handleEvent oninput recv now =>
    cases ht
    refine hs.quiet ?_ (handleEvent_packets s oninput recv now).2
    unfold Controller.handleEvent
    split
    · split <;> rfl
    · rfl
  | address w addr =>
    cases ht
    exact ⟨hs.next, hs.sent⟩

/-! ### Runs -/

theorem onWire (hk : Known s) (ht : Tagged s) (hs : Sequenced s) {k : Nat} {p : Sent}
    (hp : s.world.sent[k]? = some p) : OnWire s k p where
  seq := hs.sent k p hp
  id := ht.sent p (List.mem_of_getElem? hp)
  inserted := hk.sent p (List.mem_of_getElem? hp)
  sum := allOnes_packet rfl
  back := fun header hlen source => by
    have hid : htons (echoRequest s.pid p.seq p.payload).id = UInt16.ofNat s.pid := htons_htons _
    rw [Controller.wire, accepted_packet s.pid hlen, if_pos hid]

/-- In every state of every run, the packets that were sent are echo requests of hosts that were inserted, with the
    identifier of their host and their own place for a number, which comes again after 2^16 others; the checksum of each
    is good, and behind whatever IP header of 20 bytes it comes back, it is read as it was sent. --/
theorem wire_always (pid : Nat) (workers : WorkerId → Worker) (is : List Input) :
    Always step (fun s => (∀ k p, s.world.sent[k]? = some p → OnWire s k p) ∧
      ∀ j k p q, s.world.sent[j]? = some p → s.world.sent[k]? = some q → (p.seq = q.seq ↔ j ≡ k [MOD 2 ^ 16]))
      (init pid workers) is := by
  have inv : Always step (fun s => Known s ∧ Tagged s ∧ Sequenced s) (init pid workers) is :=
    always_of_step (fun _ _ _ hs ht =>
      ⟨step_known hs.1 ht, step_tagged hs.1.numbered hs.2.1 ht, step_sequenced hs.2.2 ht⟩)
      ⟨known_init pid workers, tagged_init pid workers, sequenced_init pid workers⟩ is
  refine inv.mono fun s ⟨hk, ht, hs⟩ => ⟨fun k p hp => onWire hk ht hs hp, fun j k p q hp hq => ?_⟩
  rw [hs.sent j p hp, hs.sent k q hq, ofNat_eq_iff]
  exact Nat.ModEq.add_iff_right rfl

end UdjatNetwork.Icmp
