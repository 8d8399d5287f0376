import UdjatNetwork.Theorems.Results

/-! # ICMP error messages

An error message quotes the IP header and the packet that caused it. `handle_event` reads it as it reads an
echo reply, so that it takes the unused word of the error header for the identifier of the process, and
two bytes from behind the fixed part of the quoted IP header for the identifier of the host. -/

namespace UdjatNetwork.Icmp
open Bytes Pass Machine Controller

variable {s : Controller}

/-! ### The layout of an error message -/

/-- An IPv4 header: the byte with version and length, 19 more, and the options in words of four. -/
structure IpHeader where
  fixed : List UInt8
  options : List UInt8
  length_fixed : fixed.length = 19
  length_options : options.length ≤ 40 ∧ 4 ∣ options.length

def IpHeader.bytes (hdr : IpHeader) : List UInt8 :=
  UInt8.ofNat (0x45 + hdr.options.length / 4) :: (hdr.fixed ++ hdr.options)

inductive ErrorType where
  | destinationUnreachable
  | timeExceeded
deriving DecidableEq

def ErrorType.type : ErrorType → UInt8
  | destinationUnreachable => 3
  | timeExceeded => 11

def ErrorType.response : ErrorType → Response
  | destinationUnreachable => .destinationUnreachable
  | timeExceeded => .timeExceeded

/-- An error message with all of the quoted packet, behind the IP header that carries it. -/
structure ErrorMessage where
  carrier : IpHeader
  type : ErrorType
  code : UInt8
  cksum : UInt16
  quoted : IpHeader
  no_options : carrier.options = []

/-- Type, code and checksum, and the unused word. -/
def ErrorMessage.header (m : ErrorMessage) : List UInt8 :=
  [m.type.type, m.code] ++ toLE 2 m.cksum.toNat ++ [0, 0, 0, 0]

/-- The message about a request, as it reaches the socket. -/
def ErrorMessage.bytes (m : ErrorMessage) (request : Packet) : List UInt8 :=
  m.carrier.bytes ++ (m.header ++ (m.quoted.bytes ++ request.bytes))

/-- The two bytes behind the fixed part of the quoted header: options, or the start of the request. -/
def ErrorMessage.quotedId (m : ErrorMessage) : UInt16 :=
  UInt16.ofNat (field (m.quoted.options ++ [ICMP_ECHO, 0]) 0 2)

/-- The event completes the host in the node, with the result and the source, and no other host. -/
def Controller.Completes (s : Controller) (n : Nat) (w : WorkerId) (r : Response) (source : Address)
    (t : Controller) : Prop :=
  t.hosts = s.hosts.filter (·.node ≠ n) ∧ t.world.log = s.world.log ++ [.set n w r source]

/-! ### What the controller reads -/

theorem IpHeader.length_bytes (hdr : IpHeader) : hdr.bytes.length = 20 + hdr.options.length := by
  simp [IpHeader.bytes, hdr.length_fixed]
  omega

theorem IpHeader.drop_bytes (hdr : IpHeader) : hdr.bytes.drop 20 = hdr.options := by
  unfold IpHeader.bytes
  rw [List.drop_succ_cons, ← hdr.length_fixed, List.drop_left]

theorem echoRequest_bytes (pid : Nat) (seq : UInt16) (payload : Payload) :
    ∃ rest, (echoRequest pid seq payload).bytes = [ICMP_ECHO, 0] ++ rest :=
  ⟨_, rfl⟩

variable (m : ErrorMessage)

@[simp] theorem ErrorMessage.length_header : m.header.length = 8 := by simp [ErrorMessage.header]

theorem ErrorMessage.length_carrier : m.carrier.bytes.length = sizeofIphdr := by
  rw [m.carrier.length_bytes, m.no_options]
  rfl

/-- The identifier of the payload is read from the quoted packet. -/
theorem ErrorMessage.field_quoted (pid : Nat) (seq : UInt16) (payload : Payload) :
    field ((m.header ++ (m.quoted.bytes ++ (echoRequest pid seq payload).bytes)).drop 28) 0 2 =
      field (m.quoted.options ++ [ICMP_ECHO, 0]) 0 2 := by
  obtain ⟨rest, hrest⟩ := echoRequest_bytes pid seq payload
  have hdrop : (m.header ++ (m.quoted.bytes ++ (echoRequest pid seq payload).bytes)).drop 28 =
      m.quoted.options ++ [ICMP_ECHO, 0] ++ rest := by
    rw [List.drop_append, m.length_header, List.drop_eq_nil_of_le (by simp), List.nil_append,
      List.drop_append_of_le_length (by rw [m.quoted.length_bytes]; omega), m.quoted.drop_bytes, hrest,
      List.append_assoc]
  rw [hdrop, field_append_left (by simp)]

theorem ErrorMessage.received (pid : Nat) (seq : UInt16) (payload : Payload) :
    let buf := (m.bytes (echoRequest pid seq payload)).take sizeofIn
    let packet := Packet.ofBytes (buf.drop sizeofIphdr)
    buf.length = sizeofIn ∧ packet.type = m.type.type ∧ packet.id = 0 ∧ packet.payload.id = m.quotedId := by
  intro buf packet
  set request := echoRequest pid seq payload
  have hpacket : packet = Packet.ofBytes ((m.header ++ (m.quoted.bytes ++ request.bytes)).take 40) := by
    have hdrop : buf.drop sizeofIphdr = (m.header ++ (m.quoted.bytes ++ request.bytes)).take 40 := by
      change ((m.bytes request).take sizeofIn).drop sizeofIphdr = _
      rw [List.drop_take, ErrorMessage.bytes, List.drop_left' m.length_carrier]
      rfl
    rw [← hdrop]
  refine ⟨?_, ?_, ?_, ?_⟩
  · have htotal : (m.bytes request).length = 20 + (8 + (20 + m.quoted.options.length + 40)) := by
      simp [ErrorMessage.bytes, m.length_carrier, m.quoted.length_bytes, sizeofIphdr, sizeofPacket]
    rw [List.length_take, htotal, sizeofIn, sizeofIphdr, sizeofPacket]
    omega
  · rw [hpacket]
    change UInt8.ofNat (field _ 0 1) = _
    rw [field_take (by decide), field_append_left (by simp)]
    exact UInt8.ofNat_toNat
  · rw [hpacket]
    change UInt16.ofNat (field _ 4 2) = _
    rw [field_take (by decide), field_append_left (by simp)]
    rfl
  · rw [hpacket]
    change UInt16.ofNat (field (List.drop 28 (List.take 40 _)) 0 2) = _
    rw [List.drop_take, field_take (by decide), m.field_quoted]
    rfl

/-- The word in the place of the identifier is zero, so only a process with such an identifier takes the
    message for its own. -/
theorem ErrorMessage.accepted_eq (pid : Nat) (seq : UInt16) (payload : Payload) (source : Address) :
    (pid % 65536 = 0 → ∃ packet : Packet, packet.type = m.type.type ∧ packet.payload.id = m.quotedId ∧
      accepted pid (.datagram (m.bytes (echoRequest pid seq payload)) source) = some (packet, source)) ∧
    (pid % 65536 ≠ 0 → accepted pid (.datagram (m.bytes (echoRequest pid seq payload)) source) = none) := by
  obtain ⟨hlen, htype, hid, hquoted⟩ := m.received pid seq payload
  have hzero : UInt16.ofNat pid = 0 ↔ pid % 65536 = 0 := by
    rw [← UInt16.toNat_inj, UInt16.toNat_ofNat']
    rfl
  unfold accepted
  dsimp only
  refine ⟨fun hpid => ⟨_, htype, hquoted, ?_⟩, fun hpid => ?_⟩
  · rw [if_neg (not_not.mpr hlen), if_neg (by rw [hid, hzero.mpr hpid]; decide)]
  · rw [if_neg (not_not.mpr hlen), if_pos]
    rw [hid]
    exact fun h0 => hpid (hzero.mp h0.symm)

/-! ### What the message does -/

theorem onResponse_error {h : Host} {packet : Packet} (ht : packet.type = m.type.type) {source : Address}
    {now : Timespec} {w : World} (hid : packet.payload.id = h.id) :
    (h.onResponse packet.type source packet.payload now w).1 = w.set h m.type.response source := by
  unfold Host.onResponse
  rw [ht, if_neg (not_not.mpr hid)]
  cases m.type <;> rfl

/-- A packet of an error message completes the one host that it should, if and only if the identifier it
    carries is the one of this host alone. -/
theorem completes_packet {h : Host} {packet : Packet} {source : Address} {recv : Recv}
    (hs : Numbered s.view) (hh : h ∈ s.hosts) (hacc : accepted s.pid recv = some (packet, source))
    (ht : packet.type = m.type.type) (now : Nat → Timespec) :
    s.Completes h.node h.worker m.type.response source (s.handleEvent true recv now) ↔
      packet.payload.id = h.id ∧ ∀ x ∈ s.hosts, x.id = h.id → x.node = h.node := by
  have hecho : packet.type ≠ ICMP_ECHO := by
    rw [ht]
    cases m.type <;> decide
  have meets : ∀ x : Host, packet.meets x = true ↔ packet.payload.id = x.id := fun x => by
    simp [Packet.meets, hecho]
  unfold Controller.Completes
  rw [handleEvent_eq hacc]
  constructor
  · rintro ⟨hhosts, -⟩
    have gone : ∀ x ∈ s.hosts, packet.payload.id = x.id ↔ x.node = h.node := fun x hx => by
      have hx' : (x ∈ s.hosts.filter fun h => !packet.meets h) ↔ x ∈ s.hosts.filter (·.node ≠ h.node) :=
        iff_of_eq (congrArg (x ∈ ·) hhosts)
      simpa [hx, ← meets] using not_congr hx'
    have hid : packet.payload.id = h.id := (gone h hh).mpr rfl
    exact ⟨hid, fun x hx hxid => (gone x hx).mp (hid.trans hxid.symm)⟩
  · rintro ⟨hid, huniq⟩
    have same : ∀ x ∈ s.hosts, packet.meets x = decide (x.node = h.node) := fun x hx => by
      have : packet.meets x = true ↔ x.node = h.node := by
        rw [meets]
        refine ⟨fun hxid => huniq x hx (hxid.symm.trans hid), fun hn => ?_⟩
        have hxh : x = h := hs.eq_of_node hx hh hn
        rw [hxh]
        exact hid
      exact Bool.eq_iff_iff.mpr (this.trans decide_eq_true_iff.symm)
    have hmeets : (s.hosts.filter fun h => packet.meets h) = [h] := by
      obtain ⟨pre, post, he⟩ := List.append_of_mem hh
      have hnodup : (s.hosts.map (·.node)).Nodup := hs.nodup
      rw [List.filter_congr same, he]
      exact filter_node_eq (he ▸ hnodup)
    refine ⟨List.filter_congr fun x hx => by simp [same x hx], ?_⟩
    rw [hmeets]
    change (World.setBusy _ _ _).log = _
    rw [World.log_setBusy, onResponse_error m ht hid, World.log_set]

/-- In every reachable state, an error message that quotes a request of a pending host completes this host,
    and no other, if and only if the identifier of the process is zero modulo 2^16, and the two bytes
    behind the fixed part of the quoted IP header are the identifier of this host alone. --/
theorem error_message_completes_iff (pid : Nat) (workers : WorkerId → Worker) (is : List Input) {s : Controller}
    (hrun : exec step (init pid workers) is = some s) {h : Host} (hh : h ∈ s.hosts) {request : Sent}
    (hsent : request ∈ s.world.sent ∧ request.node = h.node) (m : ErrorMessage) (source : Address)
    (now : Nat → Timespec) :
    s.Completes request.node h.worker m.type.response source
        (s.handleEvent true
          (.datagram (m.bytes (echoRequest s.pid request.seq request.payload)) source) now) ↔
      s.pid % 65536 = 0 ∧ m.quotedId = h.id ∧ ∀ x ∈ s.hosts, x.id = h.id → x.node = h.node := by
  have hs : Numbered s.view := (always_numbered pid workers is).of_exec hrun
  obtain ⟨hzero, hother⟩ := m.accepted_eq s.pid request.seq request.payload source
  rw [hsent.2]
  by_cases hpid : s.pid % 65536 = 0
  · obtain ⟨packet, htype, hquoted, hacc⟩ := hzero hpid
    rw [completes_packet m hs hh hacc htype now, hquoted]
    simp [hpid]
  · -- The message is ignored, and the host stays in the list.
    have hkeep : s.handleEvent true
        (.datagram (m.bytes (echoRequest s.pid request.seq request.payload)) source) now = s := by
      simp [Controller.handleEvent, hother hpid]
    rw [hkeep]
    refine iff_of_false (fun hc => ?_) fun hc => hpid hc.1
    have hmem := hh
    rw [hc.1] at hmem
    simp at hmem

/-- A process with identifier 1 ignores the message about its first request. --/
theorem error_message_ignored :
    ¬ ∀ (pid : Nat) (workers : WorkerId → Worker) (is : List Input) (s : Controller),
      exec step (init pid workers) is = some s → ∀ h ∈ s.hosts, ∀ request ∈ s.world.sent,
        request.node = h.node → ∀ (m : ErrorMessage) (source : Address) (now : Nat → Timespec),
          s.Completes request.node h.worker m.type.response source
            (s.handleEvent true
              (.datagram (m.bytes (echoRequest s.pid request.seq request.payload)) source) now) := by
  intro claim
  let header : IpHeader := ⟨List.replicate 19 0, [], rfl, by decide⟩
  let m : ErrorMessage := ⟨header, .destinationUnreachable, 1, 0, header, rfl⟩
  have hrun : (exec step (init 1 fun _ => { addr := .inet 0x0100007F })
      [.insert 0 { start := { socket := some 7 } }]).map (fun s => (s.pid, s.hosts, s.world.sent)) =
        some (1, [{ node := 0, worker := 0, id := 0, timeout := 1, packets := 1, next := 1 }],
          [{ node := 0, seq := 1, payload := { seq := 1 } }]) := by decide
  obtain ⟨s, hs, he⟩ := Option.map_eq_some_iff.mp hrun
  obtain ⟨hpid, hhosts, hsent⟩ : s.pid = 1 ∧ s.hosts = _ ∧ s.world.sent = _ := by simpa using he
  have hc := claim _ _ _ s hs _ (by rw [hhosts]; exact List.mem_cons_self) _
    (by rw [hsent]; exact List.mem_cons_self) rfl m .empty fun _ => {}
  have hacc := (m.accepted_eq s.pid 1 { seq := 1 } .empty).2 (by rw [hpid]; decide)
  have hkept := hc.1
  simp [Controller.handleEvent, hacc, hhosts] at hkept

/-- A process with identifier 65536, whose first host has the identifier 0, and a quoted header that ends
    with a word of padding. --/
theorem error_message_completes_padded :
    ∃ s, exec step (init 65536 fun _ => { addr := .inet 0x0100007F })
        [.insert 0 { start := { socket := some 7 } }] = some s ∧
      ∃ h ∈ s.hosts, ∃ request ∈ s.world.sent, ∃ m : ErrorMessage,
        s.Completes request.node h.worker m.type.response .empty
          (s.handleEvent true
            (.datagram (m.bytes (echoRequest s.pid request.seq request.payload)) .empty) fun _ => {}) := by
  let m : ErrorMessage := ⟨⟨List.replicate 19 0, [], rfl, by decide⟩, .timeExceeded, 0, 0,
    ⟨List.replicate 19 0, [0, 0, 0, 0], rfl, by decide⟩, rfl⟩
  have hrun : (exec step (init 65536 fun _ => { addr := .inet 0x0100007F })
      [.insert 0 { start := { socket := some 7 } }]).map (fun s => (s.pid, s.hosts, s.world.sent)) =
        some (65536, [{ node := 0, worker := 0, id := 0, timeout := 1, packets := 1, next := 1 }],
          [{ node := 0, seq := 1, payload := { seq := 1 } }]) := by decide
  obtain ⟨s, hs, he⟩ := Option.map_eq_some_iff.mp hrun
  obtain ⟨hpid, hhosts, hsent⟩ : s.pid = 65536 ∧ s.hosts = _ ∧ s.world.sent = _ := by simpa using he
  refine ⟨s, hs, _, by rw [hhosts]; exact List.mem_cons_self, _, by rw [hsent]; exact List.mem_cons_self, m, ?_⟩
  refine (error_message_completes_iff 65536 _ _ hs (by rw [hhosts]; exact List.mem_cons_self)
    ⟨by rw [hsent]; exact List.mem_cons_self, rfl⟩ m .empty fun _ => {}).mpr ⟨by rw [hpid], by decide, ?_⟩
  rw [hhosts]
  intro x hx _
  rw [List.mem_singleton.mp hx]

end UdjatNetwork.Icmp
