import UdjatNetwork.Theorems.Results

/-! # The reply to an echo request

A reply brings back the identifier, the number and the data of the request. What `send` writes there is what
`handle_event` reads, and it takes no other packet for a reply. -/

namespace UdjatNetwork.Icmp
open Bytes Pass Controller

variable {s : Controller}

/-- An echo reply, with an IP header without options, and with a code and a checksum of its own. -/
structure EchoReply where
  header : List UInt8
  code : UInt8
  cksum : UInt16
  length_header : header.length = sizeofIphdr

/-- The reply to the request, as it reaches the socket: from the identifier on, what the request has there. -/
def EchoReply.bytes (r : EchoReply) (request : Packet) : List UInt8 :=
  r.header ++ ([ICMP_ECHOREPLY, r.code] ++ toLE 2 r.cksum.toNat ++ request.bytes.drop 4)

/-- The request as it comes back to the sender, behind an IP header. -/
def EchoReply.loopback (r : EchoReply) (request : Packet) : List UInt8 := r.header ++ request.bytes

/-- The ICMP identifier of a datagram, in the byte order of the network. -/
def identifier (bytes : List UInt8) : Nat := 256 * field bytes 24 1 + field bytes 25 1

/-- `recvfrom` does not return the size of the buffer, or the identifier is not the one of the process. -/
def Controller.Recv.Foreign (pid : Nat) : Recv → Prop
  | .error _ => True
  | .datagram bytes _ => (bytes.take sizeofIn).length ≠ sizeofIn ∨ identifier bytes ≠ pid % 65536

/-- The hosts with the identifier of the payload are completed, each with one echo reply, the others stay in their
    order, and so do the workers of no such host. -/
structure Answered (s t : Controller) (payload : Payload) (source : Address) : Prop where
  hosts : t.hosts = s.hosts.filter fun h => decide (h.id ≠ payload.id)
  log : t.world.log = s.world.log ++
    (s.hosts.filter fun h => decide (h.id = payload.id)).map fun h => .set h.node h.worker .echoReply source
  free : ∀ h ∈ s.hosts, h.id = payload.id → t.world.busy h.worker = false
  workers : ∀ v, (∀ h ∈ s.hosts, h.id = payload.id → h.worker ≠ v) → t.world.workers v = s.world.workers v

/-! ### Datagrams -/

/-- A whole packet behind an IP header is read as it is. -/
theorem accepted_packet (pid : Nat) {header : List UInt8} (hlen : header.length = sizeofIphdr) (p : Packet)
    (source : Address) :
    accepted pid (.datagram (header ++ p.bytes) source) =
      if htons p.id = UInt16.ofNat pid then some (p, source) else none := by
  have htake : (header ++ p.bytes).take sizeofIn = header ++ p.bytes :=
    List.take_of_length_le (by rw [List.length_append, hlen, p.length_bytes]; exact Nat.le_refl _)
  have hlength : (header ++ p.bytes).length = sizeofIn := by
    rw [List.length_append, hlen, p.length_bytes]
    rfl
  unfold accepted
  dsimp only
  rw [htake, if_neg (not_not.mpr hlength), List.drop_left' hlen, Packet.ofBytes_bytes]
  by_cases hid : htons p.id = UInt16.ofNat pid
  · rw [if_neg (not_not.mpr hid), if_pos hid]
  · rw [if_pos hid, if_neg hid]

/-- The reply is the request, but for type, code and checksum. -/
theorem EchoReply.bytes_eq (r : EchoReply) (request : Packet) :
    r.bytes request = r.header ++ { request with type := ICMP_ECHOREPLY, code := r.code, cksum := r.cksum }.bytes := by
  obtain ⟨rest, -, hbytes⟩ := request.exists_rest
  have hwhole : request.bytes = [request.type, request.code] ++ toLE 2 request.cksum.toNat ++ rest := hbytes _ _ _
  have hdrop : request.bytes.drop 4 = rest := by rw [hwhole, List.drop_left' (by simp)]
  rw [EchoReply.bytes, hdrop, hbytes]

theorem toNat_identifier (bytes : List UInt8) :
    (htons (Packet.ofBytes ((bytes.take sizeofIn).drop sizeofIphdr)).id).toNat = identifier bytes := by
  have hword : field ((bytes.take sizeofIn).drop sizeofIphdr) 4 2 = field bytes 24 1 + 256 * field bytes 25 1 := by
    rw [field_drop, field_take (by decide), field_two]
    rfl
  have hlow := field_lt bytes 24 1
  have hhigh := field_lt bytes 25 1
  rw [toNat_htons, identifier, Packet.ofBytes, UInt16.toNat_ofNat', hword]
  omega

theorem accepted_foreign {pid : Nat} {recv : Recv} (h : recv.Foreign pid) : accepted pid recv = none := by
  cases recv with
  | error => rfl
  | datagram bytes source =>
    unfold accepted
    dsimp only
    by_cases hlen : (bytes.take sizeofIn).length = sizeofIn
    · rw [if_neg (not_not.mpr hlen), if_pos]
      intro hid
      refine h.resolve_left (not_not.mpr hlen) ?_
      rw [← toNat_identifier, hid, UInt16.toNat_ofNat']
    · exact if_pos hlen

/-! ### Hosts -/

section Visits
variable {payload : Payload} {source : Address}

/-- What the visits of hosts with the identifier of an echo reply do. -/
theorem foldl_answered (source : Address) (now : Nat → Timespec) {l : List Host} (hl : ∀ h ∈ l, payload.id = h.id) (w : World) :
    let visits := l.foldl (fun w h => (h.onResponse ICMP_ECHOREPLY source payload (now h.node) w).1.setBusy h.worker false) w
    visits.log = w.log ++ l.map (fun h => .set h.node h.worker .echoReply source) ∧
      (∀ v, (w.busy v = false ∨ ∃ h ∈ l, h.worker = v) → visits.busy v = false) ∧
      ∀ v, (∀ h ∈ l, h.worker ≠ v) → visits.workers v = w.workers v := by
  induction l generalizing w with
  | nil => simp
  | cons h l ih =>
    obtain ⟨hid, hl⟩ := List.forall_mem_cons.mp hl
    obtain ⟨time, hfirst⟩ : ∃ time, (h.onResponse ICMP_ECHOREPLY source payload (now h.node) w).1 =
        (w.setTime h.worker time).set h .echoReply source := by
      unfold Host.onResponse
      rw [if_neg (not_not.mpr hid), if_neg (by decide), if_pos rfl]
      exact ⟨_, rfl⟩
    obtain ⟨hlog, hbusy, hworkers⟩ := ih hl (((w.setTime h.worker time).set h .echoReply source).setBusy h.worker false)
    simp only [List.foldl_cons, hfirst]
    refine ⟨by rw [hlog]; simp, fun v hv => ?_, fun v hv => ?_⟩
    · refine hbusy v ?_
      rw [World.busy_setBusy, World.busy_set, World.busy_setTime]
      by_cases hw : v = h.worker
      · exact Or.inl (if_pos hw)
      · rw [if_neg hw]
        refine hv.imp_right fun ⟨x, hx, hxv⟩ => ?_
        rcases List.mem_cons.mp hx with rfl | hx
        · exact absurd hxv.symm hw
        · exact ⟨x, hx, hxv⟩
    · obtain ⟨hne, hv⟩ := List.forall_mem_cons.mp hv
      rw [hworkers v hv]
      simp [World.setBusy, World.setTime, World.set, World.record, Ne.symm hne]

theorem answered_of_accepted {recv : Recv} {packet : Packet} (hacc : accepted s.pid recv = some (packet, source))
    (ht : packet.type = ICMP_ECHOREPLY) (now : Nat → Timespec) :
    Answered s (s.handleEvent true recv now) packet.payload source := by
  have hmeets : ∀ h : Host, packet.meets h = decide (h.id = packet.payload.id) := fun h => by
    have hecho : packet.type ≠ ICMP_ECHO := by rw [ht]; decide
    simp [Packet.meets, hecho, eq_comm]
  have hl : ∀ h ∈ s.hosts.filter fun h => packet.meets h, packet.payload.id = h.id := fun h hh => by
    have hh := (List.mem_filter.mp hh).2
    rw [hmeets] at hh
    exact (of_decide_eq_true hh).symm
  obtain ⟨hlog, hbusy, hworkers⟩ := foldl_answered source now hl s.world
  rw [← ht] at hlog hbusy hworkers
  rw [handleEvent_eq hacc]
  refine ⟨?_, ?_, fun h hh hid => ?_, fun v hv => ?_⟩
  · simp [hmeets]
  · simpa only [hmeets] using hlog
  · exact hbusy _ (Or.inr ⟨h, List.mem_filter.mpr ⟨hh, by rw [hmeets, hid]; exact decide_eq_true rfl⟩, rfl⟩)
  · refine hworkers v fun h hh => ?_
    obtain ⟨hh, hm⟩ := List.mem_filter.mp hh
    rw [hmeets] at hm
    exact hv h hh (of_decide_eq_true hm)

end Visits

/-- The request itself completes no host. -/
theorem handleEvent_echo {recv : Recv} {packet : Packet} {source : Address}
    (hacc : accepted s.pid recv = some (packet, source)) (ht : packet.type = ICMP_ECHO) (now : Nat → Timespec) :
    s.handleEvent true recv now = s := by
  have hmeets : ∀ h : Host, packet.meets h = false := fun h => by simp [Packet.meets, ht]
  rw [handleEvent_eq hacc]
  simp [hmeets]

/-- The reply to a request that `send` transmits is read as the payload that was sent, and completes exactly the hosts
    with its identifier; the request itself and foreign packets change nothing. --/
theorem echo_answered (s : Controller) (request : Sent) (reply : EchoReply) (source : Address) (now : Nat → Timespec) :
    let packet := echoRequest s.pid request.seq request.payload
    (∃ p, accepted s.pid (.datagram (reply.bytes packet) source) = some (p, source) ∧ p.payload = request.payload) ∧
      Answered s (s.handleEvent true (.datagram (reply.bytes packet) source) now) request.payload source ∧
      s.handleEvent true (.datagram (reply.loopback packet) source) now = s ∧
      ∀ recv, recv.Foreign s.pid → s.handleEvent true recv now = s := by
  intro packet
  have hid : htons packet.id = UInt16.ofNat s.pid := htons_htons _
  have hreply : accepted s.pid (.datagram (reply.bytes packet) source) =
      some ({ packet with type := ICMP_ECHOREPLY, code := reply.code, cksum := reply.cksum }, source) := by
    rw [reply.bytes_eq, accepted_packet _ reply.length_header, if_pos hid]
  have hloopback : accepted s.pid (.datagram (reply.loopback packet) source) = some (packet, source) := by
    rw [EchoReply.loopback, accepted_packet _ reply.length_header, if_pos hid]
  refine ⟨⟨_, hreply, rfl⟩, answered_of_accepted hreply rfl now, handleEvent_echo hloopback rfl now, fun recv h => ?_⟩
  unfold Controller.handleEvent
  simp only [if_true, accepted_foreign h]

/-- Two hosts with one identifier, and an error of `recvfrom`. --/
theorem echo_answered_twice :
    let host : Nat → Host := fun n => { node := n, worker := n, id := 7, timeout := 10 }
    let s : Controller := { pid := 70000, fd := 3, hosts := [host 0, host 1], world := { workers := fun _ => {} } }
    let request : Sent := { node := 0, seq := 1, payload := { id := 7, seq := 1, time := 5 } }
    let reply : EchoReply := ⟨List.replicate 20 0, 0, 0, rfl⟩
    let packet := echoRequest s.pid request.seq request.payload
    Answered s (s.handleEvent true (.datagram (reply.bytes packet) (.inet 1)) fun _ => {}) request.payload (.inet 1) ∧
      s.handleEvent true (.error 11) (fun _ => {}) = s := by
  intro host s request reply packet
  obtain ⟨-, hanswered, -, hforeign⟩ := echo_answered s request reply (.inet 1) fun _ => {}
  exact ⟨hanswered, hforeign (.error 11) trivial⟩

end UdjatNetwork.Icmp
