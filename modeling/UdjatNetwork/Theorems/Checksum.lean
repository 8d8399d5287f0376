import Mathlib.Algebra.Order.BigOperators.Group.List
import UdjatNetwork.Icmp.Packet
import UdjatNetwork.Support.OnesComplement

/-! # The checksum

`in_chksum` sums in an `int`, and folds the carries in afterwards, twice. That is the complement of the ones'
complement sum of the words, and a packet that carries it sums to all ones. -/

namespace UdjatNetwork.Icmp
open Bytes

/-- The words of a little-endian machine; an odd last byte is the low one of its word. -/
def words : List UInt8 → List Nat
  | a :: b :: buf => (a.toNat + 256 * b.toNat) :: words buf
  | [a] => [a.toNat]
  | [] => []

def onesSum (buf : List UInt8) : Nat := OnesComplement.sum 0xFFFF (words buf)

/-- The bytes of a packet of any length, with its checksum. -/
def packetBytes (type code : UInt8) (cksum : UInt16) (rest : List UInt8) : List UInt8 :=
  [type, code] ++ toLE 2 cksum.toNat ++ rest

/-- The sum is all ones, and the checksum zero. -/
structure AllOnes (buf : List UInt8) : Prop where
  sum : onesSum buf = 0xFFFF
  cksum : inChksumInt buf = some 0

/-! ### Words -/

theorem words_le (buf : List UInt8) : ∀ w ∈ words buf, w ≤ 0xFFFF := by
  fun_induction words buf with
  | case1 a b buf ih =>
    have ha : a.toNat < 256 := a.toNat_lt
    have hb : b.toNat < 256 := b.toNat_lt
    exact List.forall_mem_cons.mpr ⟨by omega, ih⟩
  | case2 a =>
    have ha : a.toNat < 256 := a.toNat_lt
    exact List.forall_mem_cons.mpr ⟨by omega, by simp⟩
  | case3 => simp

theorem length_words (buf : List UInt8) : (words buf).length = (buf.length + 1) / 2 := by
  fun_induction words buf with
  | case1 a b buf ih =>
    rw [List.length_cons, ih, List.length_cons, List.length_cons]
    omega
  | case2 a => simp
  | case3 => rfl

/-- The words of 65536 bytes sum up to an `int`. -/
theorem sum_words_le {buf : List UInt8} (h : buf.length ≤ 65536) : (words buf).sum ≤ 32768 * 0xFFFF := by
  have hlen : (words buf).length ≤ 32768 := by
    rw [length_words]
    omega
  calc (words buf).sum ≤ (words buf).length * 0xFFFF := List.sum_le_card_nsmul _ _ (words_le buf)
    _ ≤ 32768 * 0xFFFF := Nat.mul_le_mul_right _ hlen

theorem onesSum_eq (buf : List UInt8) : onesSum buf = OnesComplement.reduce 0xFFFF (words buf).sum :=
  OnesComplement.sum_eq (by decide) (words_le buf)

theorem onesSum_le (buf : List UInt8) : onesSum buf ≤ 0xFFFF := by
  rw [onesSum_eq]
  exact OnesComplement.reduce_le (by decide) _

/-! ### The loop -/

theorem chksumLoop_eq (buf : List UInt8) (sum : Nat) : chksumLoop buf sum = sum + (words buf).sum := by
  fun_induction chksumLoop buf sum with
  | case1 a b buf sum ih => rw [ih, words, List.sum_cons, Nat.add_assoc]
  | case2 a sum => simp [words]
  | case3 sum => simp [words]

/-- The accumulator only grows: when the last sum fits, all do. -/
theorem chksumLoopInt_eq {buf : List UInt8} {sum : Nat} (h : sum + (words buf).sum ≤ INT_MAX) :
    chksumLoopInt buf sum = some (sum + (words buf).sum) := by
  fun_induction words buf generalizing sum with
  | case1 a b buf ih =>
    rw [List.sum_cons] at h
    rw [chksumLoopInt, addInt, if_pos (by omega), Option.bind_some, ih (by omega), List.sum_cons, Nat.add_assoc]
  | case2 a =>
    rw [List.sum_singleton] at h
    rw [chksumLoopInt, addInt, if_pos h, List.sum_singleton]
  | case3 => rfl

/-! ### The folds -/

theorem inChksum_folds {buf : List UInt8} (h : buf.length ≤ 65536) :
    inChksumInt buf = some (inChksum buf) ∧ (inChksum buf).toNat + onesSum buf = 0xFFFF := by
  have hle : (words buf).sum ≤ 32768 * 0xFFFF := sum_words_le h
  obtain ⟨hfold, hlow⟩ := OnesComplement.fold_twice (m := 0xFFFF) (n := (words buf).sum) (by decide) (by omega)
  have hand : ∀ n : Nat, n &&& 0xFFFF = n % 0x10000 := fun n => Nat.and_two_pow_sub_one_eq_mod n 16
  have hshift : ∀ n : Nat, n >>> 16 = n / 0x10000 := fun n => Nat.shiftRight_eq_div_pow n 16
  have hfirst : addInt ((words buf).sum / 0x10000) ((words buf).sum % 0x10000) =
      some ((words buf).sum / 0x10000 + (words buf).sum % 0x10000) := if_pos (by unfold INT_MAX; omega)
  have hsecond : ∀ s ≤ 2 * 0xFFFF, addInt s (s / 0x10000) = some (s + s / 0x10000) := fun s hs =>
    if_pos (by unfold INT_MAX; omega)
  constructor
  · unfold inChksumInt inChksum
    rw [chksumLoopInt_eq (by unfold INT_MAX; omega), chksumLoop_eq]
    simp only [Nat.zero_add, Option.bind_eq_bind, Option.bind_some, hand, hshift, hfirst, hsecond _ hfold]
    rfl
  · unfold inChksum
    simp only [chksumLoop_eq, Nat.zero_add, hand, hshift]
    rw [UInt16.toNat_not, UInt16.toNat_ofNat']
    change 0xFFFF - _ % (0xFFFF + 1) + _ = 0xFFFF
    rw [hlow, ← onesSum_eq]
    exact Nat.sub_add_cancel (onesSum_le buf)

theorem words_packetBytes (type code : UInt8) (cksum : UInt16) (rest : List UInt8) :
    words (packetBytes type code cksum rest) = (type.toNat + 256 * code.toNat) :: cksum.toNat :: words rest := by
  have hlow : (UInt8.ofNat cksum.toNat).toNat + 256 * (UInt8.ofNat (cksum.toNat / 256)).toNat = cksum.toNat := by
    have hlt : cksum.toNat < 65536 := cksum.toNat_lt
    rw [UInt8.toNat_ofNat', UInt8.toNat_ofNat']
    omega
  simp only [packetBytes, toLE, List.cons_append, List.nil_append, words, hlow]

/-- The checksum fills the sum of a packet up to all ones. -/
theorem allOnes_stored (type code : UInt8) {rest : List UInt8} (h : 4 + rest.length ≤ 65536) :
    AllOnes (packetBytes type code (inChksum (packetBytes type code 0 rest)) rest) := by
  set stored := packetBytes type code (inChksum (packetBytes type code 0 rest)) rest with hstored
  have hlen : ∀ cksum, (packetBytes type code cksum rest).length ≤ 65536 := fun cksum => by
    simp only [packetBytes, List.length_append, length_toLE, List.length_cons, List.length_nil]
    omega
  obtain ⟨-, hcksum⟩ := inChksum_folds (hlen 0)
  have hsmall := onesSum_le (packetBytes type code 0 rest)
  rw [onesSum_eq] at hcksum hsmall
  have hzero : (words (packetBytes type code 0 rest)).sum = type.toNat + 256 * code.toNat + (words rest).sum := by
    rw [words_packetBytes, List.sum_cons, List.sum_cons, UInt16.toNat_zero, Nat.zero_add]
  have hsum : (words stored).sum = (words (packetBytes type code 0 rest)).sum +
      (0xFFFF - OnesComplement.reduce 0xFFFF (words (packetBytes type code 0 rest)).sum) := by
    rw [hstored, words_packetBytes, List.sum_cons, List.sum_cons]
    omega
  have hones : onesSum stored = 0xFFFF := by
    rw [onesSum_eq, hsum]
    exact OnesComplement.reduce_add_compl (by decide) _
  obtain ⟨hint, hcompl⟩ := inChksum_folds (hlen (inChksum (packetBytes type code 0 rest)))
  refine ⟨hones, hint.trans (congrArg some (UInt16.toNat_inj.mp ?_))⟩
  rw [hones] at hcompl
  exact Nat.add_eq_right.mp hcompl

theorem allOnes_packet {p : Packet} (h : p.cksum = 0) : AllOnes { p with cksum := inChksum p.bytes }.bytes := by
  obtain ⟨rest, hlen, hbytes⟩ := p.exists_rest
  have hcksum : ∀ cksum, { p with cksum }.bytes = packetBytes p.type p.code cksum rest := hbytes p.type p.code
  have hzero : p.bytes = packetBytes p.type p.code 0 rest := by
    rw [← h]
    exact hcksum p.cksum
  rw [hcksum, hzero]
  exact allOnes_stored p.type p.code (by omega)

/-- Of 65536 bytes at most the sum does not overflow, and the checksum is the complement of the ones' complement sum;
    every packet sums to all ones once it carries the checksum it has with a field of zero, as `send` stores it. --/
theorem checksum_complements :
    (∀ buf : List UInt8, buf.length ≤ 65536 →
      inChksumInt buf = some (inChksum buf) ∧ (inChksum buf).toNat + onesSum buf = 0xFFFF) ∧
    (∀ type code, ∀ rest : List UInt8, 4 + rest.length ≤ 65536 →
      AllOnes (packetBytes type code (inChksum (packetBytes type code 0 rest)) rest)) ∧
    (∀ p : Packet, p.cksum = 0 → AllOnes { p with cksum := inChksum p.bytes }.bytes) ∧
    ∀ pid seq payload, AllOnes (echoRequest pid seq payload).bytes :=
  ⟨fun _ h => inChksum_folds h, fun type code _ h => allOnes_stored type code h, fun _ h => allOnes_packet h,
    fun _ _ _ => allOnes_packet rfl⟩

/-- Three bytes, five more behind a checksum, and an empty packet. --/
theorem checksum_complements_three :
    (inChksum [1, 2, 3]).toNat + onesSum [1, 2, 3] = 0xFFFF ∧
      AllOnes (packetBytes 8 0 (inChksum (packetBytes 8 0 0 [1, 2, 3, 4, 5])) [1, 2, 3, 4, 5]) ∧
      AllOnes { ({} : Packet) with cksum := inChksum ({} : Packet).bytes }.bytes := by
  obtain ⟨hbuf, hbytes, hpacket, -⟩ := checksum_complements
  exact ⟨(hbuf [1, 2, 3] (by decide)).2, hbytes 8 0 [1, 2, 3, 4, 5] (by decide), hpacket {} rfl⟩

end UdjatNetwork.Icmp
