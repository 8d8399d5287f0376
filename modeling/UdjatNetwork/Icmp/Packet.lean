import UdjatNetwork.Support.Bytes
import UdjatNetwork.Udjat

/-! # ICMP packets

The layouts of `Payload` (`private/linux/icmp_controller.h`) and `Packet` (`icmp_controller.cc`), packed
structures that the controller writes to and reads from the socket as they lie in the memory of a
little-endian machine. `struct icmp` of the C library takes 28 bytes: type, code, checksum, identifier,
sequence number, and a union of 20 bytes. -/

namespace UdjatNetwork.Icmp
open Bytes

def ICMP_ECHOREPLY : UInt8 := 0
def ICMP_DEST_UNREACH : UInt8 := 3
def ICMP_ECHO : UInt8 := 8
def ICMP_TIME_EXCEEDED : UInt8 := 11

/-- `htons` on a little-endian machine. -/
def htons (x : UInt16) : UInt16 := (x <<< 8) ||| (x >>> 8)

structure Payload where
  id : UInt16 := 0
  seq : UInt16 := 0
  time : UInt64 := 0
deriving Repr, DecidableEq

def Payload.bytes (p : Payload) : List UInt8 :=
  toLE 2 p.id.toNat ++ toLE 2 p.seq.toNat ++ toLE 8 p.time.toNat

def Payload.ofBytes (bs : List UInt8) : Payload where
  id := UInt16.ofNat (field bs 0 2)
  seq := UInt16.ofNat (field bs 2 2)
  time := UInt64.ofNat (field bs 4 8)

/-- `struct Packet`, by the fields the controller uses; the union after the sequence number stays zero
    in what it sends. -/
structure Packet where
  type : UInt8 := 0
  code : UInt8 := 0
  cksum : UInt16 := 0
  id : UInt16 := 0
  seq : UInt16 := 0
  payload : Payload := {}
deriving Repr, DecidableEq

def Packet.bytes (p : Packet) : List UInt8 :=
  [p.type, p.code] ++ toLE 2 p.cksum.toNat ++ toLE 2 p.id.toNat ++ toLE 2 p.seq.toNat ++
    List.replicate 20 0 ++ p.payload.bytes

def Packet.ofBytes (bs : List UInt8) : Packet where
  type := UInt8.ofNat (field bs 0 1)
  code := UInt8.ofNat (field bs 1 1)
  cksum := UInt16.ofNat (field bs 2 2)
  id := UInt16.ofNat (field bs 4 2)
  seq := UInt16.ofNat (field bs 6 2)
  payload := Payload.ofBytes (bs.drop 28)

def sizeofIphdr : Nat := 20

def sizeofPacket : Nat := 40

@[simp] theorem Payload.length_bytes (p : Payload) : p.bytes.length = 12 := by simp [Payload.bytes]

@[simp] theorem Packet.length_bytes (p : Packet) : p.bytes.length = sizeofPacket := by
  simp [Packet.bytes, sizeofPacket]

/-- Type, code and checksum are apart from the rest. -/
theorem Packet.exists_rest (p : Packet) :
    ∃ rest, rest.length = 36 ∧
      ∀ type code cksum, { p with type, code, cksum }.bytes = [type, code] ++ toLE 2 cksum.toNat ++ rest := by
  refine ⟨toLE 2 p.id.toNat ++ toLE 2 p.seq.toNat ++ List.replicate 20 0 ++ p.payload.bytes, by simp, fun _ _ _ => ?_⟩
  simp only [Packet.bytes, List.append_assoc]

/-! ### Reading what was written -/

theorem toNat_htons (x : UInt16) : (htons x).toNat = 256 * (x.toNat % 256) + x.toNat / 256 := by
  have hx : x.toNat < 65536 := x.toNat_lt
  have hhigh : (x.toNat <<< 8) % 65536 = 2 ^ 8 * (x.toNat % 256) := by
    rw [Nat.shiftLeft_eq]
    omega
  have hlow : x.toNat >>> 8 < 2 ^ 8 := by
    rw [Nat.shiftRight_eq_div_pow]
    omega
  unfold htons
  rw [UInt16.toNat_or, UInt16.toNat_shiftLeft, UInt16.toNat_shiftRight]
  change (x.toNat <<< 8) % 65536 ||| x.toNat >>> 8 = _
  rw [hhigh, ← Nat.two_pow_add_eq_or_of_lt hlow, Nat.shiftRight_eq_div_pow]

@[simp] theorem htons_htons (x : UInt16) : htons (htons x) = x := by
  have hx : x.toNat < 65536 := x.toNat_lt
  refine UInt16.toNat_inj.mp ?_
  rw [toNat_htons, toNat_htons]
  omega

@[simp] theorem Payload.ofBytes_bytes (p : Payload) : Payload.ofBytes p.bytes = p := by
  have hid : field p.bytes 0 2 = p.id.toNat := by
    rw [Payload.bytes, List.append_assoc, field_append_left (by simp), field_toLE]
    exact Nat.mod_eq_of_lt p.id.toNat_lt
  have hseq : field p.bytes 2 2 = p.seq.toNat := by
    rw [Payload.bytes, field_append_left (by simp), field_append_right (by simp), length_toLE, field_toLE]
    exact Nat.mod_eq_of_lt p.seq.toNat_lt
  have htime : field p.bytes 4 8 = p.time.toNat := by
    rw [Payload.bytes, field_append_right (by simp)]
    simp only [List.length_append, length_toLE, Nat.sub_self, field_toLE]
    exact Nat.mod_eq_of_lt p.time.toNat_lt
  unfold Payload.ofBytes
  rw [hid, hseq, htime, UInt16.ofNat_toNat, UInt16.ofNat_toNat, UInt64.ofNat_toNat]

@[simp] theorem Packet.ofBytes_bytes (p : Packet) : Packet.ofBytes p.bytes = p := by
  have htype : field p.bytes 0 1 = p.type.toNat := rfl
  have hcode : field p.bytes 1 1 = p.code.toNat := rfl
  have hcksum : field p.bytes 2 2 = p.cksum.toNat := by
    simp only [Packet.bytes, List.append_assoc]
    rw [field_append_right (by simp), field_append_left (by simp)]
    simp
  have hid : field p.bytes 4 2 = p.id.toNat := by
    simp only [Packet.bytes, List.append_assoc]
    rw [field_append_right (by simp), field_append_right (by simp), field_append_left (by simp)]
    simp
  have hseq : field p.bytes 6 2 = p.seq.toNat := by
    simp only [Packet.bytes, List.append_assoc]
    rw [field_append_right (by simp), field_append_right (by simp), field_append_right (by simp),
      field_append_left (by simp)]
    simp
  have hpayload : p.bytes.drop 28 = p.payload.bytes := by rw [Packet.bytes, List.drop_left' (by simp)]
  unfold Packet.ofBytes
  rw [htype, hcode, hcksum, hid, hseq, hpayload, Payload.ofBytes_bytes]
  simp

/-! ### Checksum -/

/-- The loop of `in_chksum`: the words of the buffer, an odd last byte filled up with zero. -/
def chksumLoop : List UInt8 → Nat → Nat
  | a :: b :: buf, sum => chksumLoop buf (sum + (a.toNat + 256 * b.toNat))
  | [a], sum => sum + a.toNat
  | [], sum => sum

def inChksum (buf : List UInt8) : UInt16 :=
  let sum := chksumLoop buf 0
  let sum := (sum >>> 16) + (sum &&& 0xFFFF)
  let sum := sum + (sum >>> 16)
  ~~~(UInt16.ofNat sum)

def INT_MAX : Nat := 2147483647

/-- An addition in an `int`, of numbers that are not negative; none, when it overflows. -/
def addInt (sum x : Nat) : Option Nat := if sum + x ≤ INT_MAX then some (sum + x) else none

def chksumLoopInt : List UInt8 → Nat → Option Nat
  | a :: b :: buf, sum => (addInt sum (a.toNat + 256 * b.toNat)).bind (chksumLoopInt buf)
  | [a], sum => addInt sum a.toNat
  | [], sum => some sum

/-- `in_chksum` in the `int` that it sums in; none, when an addition overflows. -/
def inChksumInt (buf : List UInt8) : Option UInt16 := do
  let sum ← chksumLoopInt buf 0
  let sum ← addInt (sum >>> 16) (sum &&& 0xFFFF)
  let sum ← addInt sum (sum >>> 16)
  return ~~~(UInt16.ofNat sum)

/-- The packet that `ICMP::Controller::send` builds for a payload. -/
def echoRequest (pid : Nat) (seq : UInt16) (payload : Payload) : Packet :=
  let packet : Packet :=
    { type := ICMP_ECHO, seq := htons seq, id := htons (UInt16.ofNat pid), payload }
  { packet with cksum := inChksum packet.bytes }

end UdjatNetwork.Icmp
