import Mathlib.Data.Nat.Basic
import Mathlib.Data.List.Basic
import Mathlib.Tactic.Ring

/-! # Bytes in memory

Unsigned integers as a little-endian machine stores them, and the fields of a byte string. -/

namespace UdjatNetwork.Bytes

/-- The `k` bytes that hold `x`, the lowest one first. -/
def toLE : Nat → Nat → List UInt8
  | 0, _ => []
  | k + 1, x => UInt8.ofNat x :: toLE k (x / 256)

/-- The integer that the bytes hold. -/
def ofLE : List UInt8 → Nat
  | [] => 0
  | b :: bs => b.toNat + 256 * ofLE bs

/-- The integer read from the `len` bytes at `off`; bytes past the end count as zero. -/
def field (bs : List UInt8) (off len : Nat) : Nat := ofLE ((bs.drop off).take len)

@[simp] theorem length_toLE (k x : Nat) : (toLE k x).length = k := by
  induction k generalizing x with
  | zero => rfl
  | succ k ih => simp [toLE, ih]

@[simp] theorem ofLE_toLE (k x : Nat) : ofLE (toLE k x) = x % 256 ^ k := by
  induction k generalizing x with
  | zero => simp [toLE, ofLE, Nat.mod_one]
  | succ k ih =>
    calc ofLE (toLE (k + 1) x) = x % 256 + 256 * (x / 256 % 256 ^ k) := by simp [toLE, ofLE, ih]
      _ = x % (256 * 256 ^ k) := (Nat.mod_mul).symm
      _ = x % 256 ^ (k + 1) := by rw [pow_succ, Nat.mul_comm]

theorem ofLE_lt (bs : List UInt8) : ofLE bs < 256 ^ bs.length := by
  induction bs with
  | nil => simp [ofLE]
  | cons b bs ih =>
    have hb := b.toNat_lt
    rw [ofLE, List.length_cons, pow_succ]
    omega

/-! ### Fields -/

theorem field_lt (bs : List UInt8) (off len : Nat) : field bs off len < 256 ^ len :=
  (ofLE_lt _).trans_le (Nat.pow_le_pow_right (by decide) (List.length_take_le len _))

theorem field_append_right {as bs : List UInt8} {off len : Nat} (h : as.length ≤ off) :
    field (as ++ bs) off len = field bs (off - as.length) len := by
  rw [field, field, List.drop_append, List.drop_eq_nil_of_le h, List.nil_append]

theorem field_append_left {as bs : List UInt8} {off len : Nat} (h : off + len ≤ as.length) :
    field (as ++ bs) off len = field as off len := by
  rw [field, field, List.drop_append_of_le_length (by omega), List.take_append_of_le_length (by simp; omega)]

theorem field_take {bs : List UInt8} {n off len : Nat} (h : off + len ≤ n) :
    field (bs.take n) off len = field bs off len := by
  rw [field, field, List.drop_take, List.take_take, Nat.min_eq_left (by omega)]

theorem field_drop (bs : List UInt8) (k off len : Nat) : field (bs.drop k) off len = field bs (k + off) len := by
  rw [field, field, List.drop_drop]

theorem field_two (bs : List UInt8) (off : Nat) : field bs off 2 = field bs off 1 + 256 * field bs (off + 1) 1 := by
  rw [field, field, field, ← List.drop_drop]
  rcases bs.drop off with _ | ⟨b, _ | ⟨c, cs⟩⟩ <;> simp [ofLE]

@[simp] theorem field_toLE (k x : Nat) : field (toLE k x) 0 k = x % 256 ^ k := by
  have htake : (toLE k x).take k = toLE k x := List.take_of_length_le (by simp)
  simp [field, htake]

end UdjatNetwork.Bytes
