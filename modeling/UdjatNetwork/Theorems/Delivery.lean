import UdjatNetwork.Theorems.Datagram

/-! # Messages and their listeners

`handle_event` goes from message to message of a datagram, and gives each to the listeners of its type, until a message
ends the datagram. -/

namespace UdjatNetwork.NetLink
open Bytes Records Layout Controller

variable {s : Controller} {threw : Listener → Nat → Bool} {r : Received}

/-- A message: `struct nlmsghdr` and the payload, and the padding behind it. -/
structure Nlmsg where
  type : UInt16
  flags : UInt16 := 0
  seq : UInt32 := 0
  pid : UInt32 := 0
  payload : List UInt8
  padding : List UInt8
  length_lt : 16 + payload.length < 4294967296
  length_padding : 16 + payload.length + padding.length = align (16 + payload.length)

namespace Nlmsg

def bytes (m : Nlmsg) : List UInt8 :=
  toLE 4 (16 + m.payload.length) ++ (toLE 2 m.type.toNat ++ (toLE 2 m.flags.toNat ++ (toLE 4 m.seq.toNat ++
    (toLE 4 m.pid.toNat ++ m.payload))))

def padded (m : Nlmsg) : List UInt8 := m.bytes ++ m.padding

/-- The message ends the datagram. -/
def Final (m : Nlmsg) : Prop := m.type.toNat ∈ finalTypes

end Nlmsg

/-- Messages that fit into the buffer, and perhaps one that ends the datagram, with anything behind it. -/
structure Batch where
  messages : List Nlmsg
  last : Option (Nlmsg × List UInt8)
  going : ∀ m ∈ messages, ¬ m.Final
  final : ∀ p ∈ last, p.1.Final
  fits : (messages.flatMap Nlmsg.padded).length ≤ sizeofBuf

def Batch.bytes (b : Batch) : List UInt8 :=
  b.messages.flatMap Nlmsg.padded ++ (b.last.map fun p => p.1.bytes ++ p.2).getD []

/-- The buffer after `recvmsg` took the datagram, as far as it fits. -/
def Received.Holds (r : Received) (bytes : List UInt8) : Prop :=
  r.status = min bytes.length sizeofBuf ∧ r.buf.take r.status = bytes.take r.status

/-- The calls of methods, each with the payload of its message. -/
def calls (buf : List UInt8) (events : List Event) : List (Listener × List UInt8) :=
  events.filterMap fun
    | .message l off len => some (l, (buf.drop (off + nlmsghdr.header)).take (len - nlmsghdr.header))
    | _ => none

/-- The calls that the message should lead to: each listener of its type, in the order of their registration. -/
def Controller.callsFor (s : Controller) (m : Nlmsg) : List (Listener × List UInt8) :=
  (s.listeners.filter fun l => decide (l.message = m.type)).map fun l => (l, m.payload)

/-! ### A message -/

namespace Nlmsg
variable (m : Nlmsg)

@[simp] theorem length_bytes : m.bytes.length = 16 + m.payload.length := by
  simp [bytes]
  omega

@[simp] theorem length_padded : m.padded.length = align (16 + m.payload.length) := by
  rw [padded, List.length_append, m.length_bytes, m.length_padding]

theorem size_bytes : field m.bytes 0 4 = 16 + m.payload.length := by
  rw [bytes, field_append_left (by simp), field_toLE]
  exact Nat.mod_eq_of_lt m.length_lt

theorem type_bytes : field m.bytes 4 2 = m.type.toNat := by
  rw [bytes, field_append_right (by simp), length_toLE, field_append_left (by simp), field_toLE]
  exact Nat.mod_eq_of_lt m.type.toNat_lt

theorem drop_bytes : m.bytes.drop 16 = m.payload := by
  have hheader : (toLE 4 (16 + m.payload.length) ++ (toLE 2 m.type.toNat ++ (toLE 2 m.flags.toNat ++
      (toLE 4 m.seq.toNat ++ toLE 4 m.pid.toNat)))).length = 16 := by simp
  simp only [bytes, ← List.append_assoc] at hheader ⊢
  exact List.drop_left' hheader

end Nlmsg

theorem calls_deliver (buf : List UInt8) (m : Nlmsg) (off : Nat)
    (hpayload : (buf.drop (off + 16)).take m.payload.length = m.payload) :
    calls buf (s.deliver threw m.type.toNat off (16 + m.payload.length)) = s.callsFor m := by
  have hlen : 16 + m.payload.length - nlmsghdr.header = m.payload.length := Nat.add_sub_cancel_left 16 _
  unfold calls Controller.deliver Controller.callsFor
  induction s.listeners with
  | nil => rfl
  | cons l ls ih =>
    rw [List.flatMap_cons, List.filterMap_append, ih, List.filter_cons]
    by_cases ht : l.message = m.type
    · have hone : (l, (buf.drop (off + nlmsghdr.header)).take (16 + m.payload.length - nlmsghdr.header)) = (l, m.payload) := by
        rw [hlen]
        exact congrArg (l, ·) hpayload
      rw [if_pos (congrArg UInt16.toNat ht), if_pos (decide_eq_true ht), List.map_cons, ← hone]
      cases threw l off <;> rfl
    · rw [if_neg fun he => ht (UInt16.toNat_inj.mp he), if_neg (by simpa using ht)]
      rfl

/-! ### The loop -/

/-- What is left of the datagram in the buffer: messages, and then nothing, or one that ends the datagram. -/
structure Left (r : Received) (off len : Nat) (ms : List Nlmsg) (tail : List UInt8) : Prop where
  status : off + len = r.status
  buf : (r.buf.drop off).take len = (ms.flatMap Nlmsg.padded ++ tail).take len
  fits : (ms.flatMap Nlmsg.padded).length ≤ len
  tail : len = (ms.flatMap Nlmsg.padded).length ∨ ∃ (m : Nlmsg) (rest : List UInt8), m.Final ∧ tail = m.bytes ++ rest

section Loop
variable {off len : Nat} {ms : List Nlmsg} {tail : List UInt8}

theorem Left.field_eq (h : Left r off len ms tail) {k n : Nat} (hk : k + n ≤ len) :
    field (r.buf.drop off) k n = field (ms.flatMap Nlmsg.padded ++ tail) k n := by
  rw [← field_take hk, h.buf, field_take hk]

/-- Without a message left, the loop ends, and calls nothing. -/
theorem Left.last (h : Left r off len [] tail) (fuel : Nat) :
    (s.messages threw r.buf (fuel + 1) off (BitVec.ofNat 32 len)).2 = some (.ok ()) ∧
      calls r.buf (s.messages threw r.buf (fuel + 1) off (BitVec.ofNat 32 len)).1 = [] := by
  have hnone : calls r.buf (if nlmsghdr.header ≤ len then [.header off] else []) = [] := by split <;> rfl
  rw [messages_eq h.status]
  by_cases hok : nlmsghdr.Ok (r.buf.drop off) len
  swap
  · rw [if_neg hok]
    exact ⟨rfl, hnone⟩
  have hlen : 16 ≤ len := hok.1
  obtain ⟨m, rest, hfinal, rfl⟩ := h.tail.resolve_left fun h0 => by
    rw [h0] at hlen
    exact absurd hlen (by simp)
  have htype : field (r.buf.drop off) 4 2 = m.type.toNat := by
    rw [h.field_eq (by omega), List.flatMap_nil, List.nil_append, field_append_left (by simp; omega), m.type_bytes]
  have hstop : ¬ NotFinal (r.buf.drop off, len) = true := by
    have hfinal : m.type.toNat ∈ finalTypes := hfinal
    simp [NotFinal, htype, hfinal]
  rw [if_pos hok, if_neg hstop]
  exact ⟨rfl, rfl⟩

theorem Left.next {m : Nlmsg} (h : Left r off len (m :: ms) tail) :
    Left r (off + align (16 + m.payload.length)) (len - align (16 + m.payload.length)) ms tail := by
  obtain ⟨hstatus, hbuf, hfits, htail⟩ := h
  rw [List.flatMap_cons, List.length_append, m.length_padded] at hfits htail
  have hskip : (r.buf.drop (off + align (16 + m.payload.length))).take (len - align (16 + m.payload.length)) =
      (ms.flatMap Nlmsg.padded ++ tail).take (len - align (16 + m.payload.length)) := by
    rw [← List.drop_drop, ← List.drop_take, hbuf, List.drop_take, List.flatMap_cons, List.append_assoc,
      List.drop_left' m.length_padded]
  exact ⟨by omega, hskip, by omega, htail.imp_left fun he => by omega⟩

/-- The next message lies whole in what is left. -/
theorem Left.head {m : Nlmsg} (h : Left r off len (m :: ms) tail) :
    align (16 + m.payload.length) ≤ len ∧ nlmsghdr.size (r.buf.drop off) = 16 + m.payload.length ∧
      field (r.buf.drop off) 4 2 = m.type.toNat ∧ (r.buf.drop (off + 16)).take m.payload.length = m.payload := by
  have hfits := h.fits
  rw [List.flatMap_cons, List.length_append, m.length_padded] at hfits
  have hle := le_align (16 + m.payload.length)
  have hlen : 16 + m.payload.length ≤ len := by omega
  have hhead : (m :: ms).flatMap Nlmsg.padded ++ tail = m.bytes ++ (m.padding ++ (ms.flatMap Nlmsg.padded ++ tail)) := by
    rw [List.flatMap_cons, Nlmsg.padded, List.append_assoc, List.append_assoc]
  refine ⟨by omega, ?_, ?_, ?_⟩
  · change field (r.buf.drop off) 0 4 = _
    rw [h.field_eq (by omega), hhead, field_append_left (by simp; omega), m.size_bytes]
  · rw [h.field_eq (by omega), hhead, field_append_left (by simp; omega), m.type_bytes]
  · calc (r.buf.drop (off + 16)).take m.payload.length
        = (((r.buf.drop off).take len).take (16 + m.payload.length)).drop 16 := by
          rw [List.take_take, Nat.min_eq_left hlen, List.drop_take, List.drop_drop, Nat.add_sub_cancel_left]
      _ = m.bytes.drop 16 := by
          rw [h.buf, List.take_take, Nat.min_eq_left hlen, hhead, List.take_left' m.length_bytes]
      _ = m.payload := m.drop_bytes

/-- A message is given to its listeners, and the loop goes on behind it. -/
theorem Left.deliver {m : Nlmsg} (h : Left r off len (m :: ms) tail) (hgoing : ¬ m.Final) (s : Controller)
    (threw : Listener → Nat → Bool) (fuel : Nat) :
    let rest := s.messages threw r.buf fuel (off + align (16 + m.payload.length))
      (BitVec.ofNat 32 (len - align (16 + m.payload.length)))
    (s.messages threw r.buf (fuel + 1) off (BitVec.ofNat 32 len)).2 = rest.2 ∧
      calls r.buf (s.messages threw r.buf (fuel + 1) off (BitVec.ofNat 32 len)).1 = s.callsFor m ++ calls r.buf rest.1 := by
  intro rest
  obtain ⟨hfits, hsize, htype, hpayload⟩ := h.head
  have hle := le_align (16 + m.payload.length)
  have hok : nlmsghdr.Ok (r.buf.drop off) len :=
    ⟨by change 16 ≤ len; omega, by rw [hsize]; exact Nat.le_add_right 16 _, by rw [hsize]; omega⟩
  have hgo : NotFinal (r.buf.drop off, len) = true := by
    have hgoing : m.type.toNat ∉ finalTypes := hgoing
    simp [NotFinal, htype, hgoing]
  have hstatus := r.status_le
  have hoff := h.status
  rw [messages_eq hoff, if_pos hok, if_pos hgo]
  simp only [hsize, htype, ofNat_sub_nlmsgAlign (show 16 + m.payload.length ≤ len by omega) (show len ≤ sizeofBuf by omega)
    (show align (16 + m.payload.length) ≤ len by omega)]
  refine ⟨rfl, ?_⟩
  have happend : ∀ es es' : List Event, calls r.buf (.header off :: (es ++ es')) = calls r.buf es ++ calls r.buf es' :=
    fun es es' => List.filterMap_append
  rw [happend, calls_deliver r.buf m off hpayload]

/-- From message to message, the loop calls the listeners of each, and ends. -/
theorem Left.messages (h : Left r off len ms tail) (hgoing : ∀ m ∈ ms, ¬ m.Final) {fuel : Nat} (hfuel : ms.length < fuel) :
    (s.messages threw r.buf fuel off (BitVec.ofNat 32 len)).2 = some (.ok ()) ∧
      calls r.buf (s.messages threw r.buf fuel off (BitVec.ofNat 32 len)).1 = ms.flatMap s.callsFor := by
  induction ms generalizing off len fuel with
  | nil =>
    obtain ⟨fuel, rfl⟩ := Nat.exists_eq_add_one_of_ne_zero (Nat.ne_of_gt hfuel)
    exact h.last fuel
  | cons m ms ih =>
    obtain ⟨fuel, rfl⟩ := Nat.exists_eq_add_one_of_ne_zero (Nat.ne_of_gt (Nat.zero_lt_of_lt hfuel))
    obtain ⟨hm, hgoing⟩ := List.forall_mem_cons.mp hgoing
    obtain ⟨hend, hcalls⟩ := h.deliver hm s threw fuel
    obtain ⟨hrest, hall⟩ := ih h.next hgoing (Nat.lt_of_succ_lt_succ hfuel)
    exact ⟨hend.trans hrest, by rw [hcalls, hall, List.flatMap_cons]⟩

end Loop

/-- Whatever its listeners do, `handle_event` calls each of them once for each message of its type, with its payload, in
    the order of the messages and then of the listeners, and returns. --/
theorem delivered (s : Controller) (threw : Listener → Nat → Bool) (b : Batch) {r : Received} (hr : r.Holds b.bytes)
    {fuel : Nat} (hfuel : b.messages.length < fuel) :
    (s.handleEvent threw fuel (.ok r)).2 = some (.ok ()) ∧
      calls r.buf (s.handleEvent threw fuel (.ok r)).1 = b.messages.flatMap s.callsFor := by
  obtain ⟨hstatus, hbuf⟩ := hr
  have hbytes : b.bytes.length = (b.messages.flatMap Nlmsg.padded).length +
      ((b.last.map fun p => p.1.bytes ++ p.2).getD []).length := List.length_append
  have hfits := b.fits
  have hleft : Left r 0 r.status b.messages ((b.last.map fun p => p.1.bytes ++ p.2).getD []) := by
    refine ⟨Nat.zero_add _, hbuf, ?_, ?_⟩
    · rw [hstatus, hbytes]
      exact Nat.le_min.mpr ⟨Nat.le_add_right _ _, hfits⟩
    · cases hlast : b.last with
      | none =>
        rw [hlast] at hbytes
        exact Or.inl (by rw [hstatus, hbytes]; exact Nat.min_eq_left hfits)
      | some p => exact Or.inr ⟨p.1, p.2, b.final p hlast, rfl⟩
  exact hleft.messages b.going hfuel

/-- A datagram in a buffer of zeros. -/
def Received.ofBytes (bytes : List UInt8) : Received where
  buf := (bytes ++ List.replicate sizeofBuf 0).take sizeofBuf
  status := min bytes.length sizeofBuf
  length_buf := by simp
  status_le := Nat.min_le_right _ _

theorem Received.holds_ofBytes (bytes : List UInt8) : (Received.ofBytes bytes).Holds bytes := by
  refine ⟨rfl, ?_⟩
  change ((bytes ++ List.replicate sizeofBuf 0).take sizeofBuf).take (min bytes.length sizeofBuf) = _
  rw [List.take_take, Nat.min_eq_left (Nat.min_le_right _ _), List.take_append_of_le_length (Nat.min_le_left _ _)]
  rfl

/-- A message of type 16 with three bytes for two listeners, the first of which throws, and the end of the datagram. --/
theorem delivered_once :
    let m : Nlmsg := { type := 16, payload := [1, 2, 3], padding := [0], length_lt := by decide, length_padding := by decide }
    let done : Nlmsg := { type := 3, payload := [], padding := [], length_lt := by decide, length_padding := by decide }
    let b : Batch :=
      { messages := [m], last := some (done, [7])
        going := by simp [m, Nlmsg.Final, finalTypes, NLMSG_DONE, NLMSG_ERROR]
        final := by simp [done, Nlmsg.Final, finalTypes, NLMSG_DONE]
        fits := by decide }
    let s : Controller := { listeners := [⟨16, 0, 0⟩, ⟨17, 0, 1⟩, ⟨16, 1, 2⟩] }
    let r := Received.ofBytes b.bytes
    (s.handleEvent (fun l _ => l.object = 0) 2 (.ok r)).2 = some (.ok ()) ∧
      calls r.buf (s.handleEvent (fun l _ => l.object = 0) 2 (.ok r)).1 = b.messages.flatMap s.callsFor := by
  intro m done b s r
  exact delivered s _ b (Received.holds_ofBytes b.bytes) (by decide)

end UdjatNetwork.NetLink
