import Mathlib.Algebra.BigOperators.Group.List.Basic
import Mathlib.Tactic.Ring

/-! # Ones' complement sums

Sums of the numbers up to `m`, all ones in binary, with the carry added again at the low end. A machine may sum in a
wider word and fold the carries in afterwards (`fold_twice`). -/

namespace UdjatNetwork.OnesComplement

variable {m : Nat}

/-- The sum, with the carry added at the low end: `a + b - (m + 1) + 1` when it does not fit. -/
def add (m a b : Nat) : Nat := if m < a + b then a + b - m else a + b

def sum (m : Nat) (ws : List Nat) : Nat := ws.foldl (add m) 0

/-- The number up to `m` that a sum folds to; only zero folds to zero. -/
def reduce (m n : Nat) : Nat := if n = 0 then 0 else (n - 1) % m + 1

theorem reduce_add_mul {r : Nat} (hpos : 0 < r) (hle : r ≤ m) (q : Nat) : reduce m (r + q * m) = r := by
  have hsplit : r + q * m - 1 = (r - 1) + q * m := by omega
  rw [reduce, if_neg (by omega), hsplit, Nat.add_mul_mod_self_right, Nat.mod_eq_of_lt (by omega)]
  omega

theorem reduce_of_le {n : Nat} (h : n ≤ m) : reduce m n = n := by
  rcases Nat.eq_zero_or_pos n with rfl | hpos
  · rfl
  · simpa using reduce_add_mul hpos h 0

/-- A positive sum is its reduction, and a multiple of `m`. -/
theorem exists_reduce (hm : 0 < m) {n : Nat} (hn : 0 < n) :
    0 < reduce m n ∧ reduce m n ≤ m ∧ ∃ q, n = reduce m n + q * m := by
  have hlt := Nat.mod_lt (n - 1) hm
  have hsplit := Nat.mod_add_div (n - 1) m
  rw [reduce, if_neg (Nat.ne_of_gt hn)]
  refine ⟨Nat.succ_pos _, hlt, (n - 1) / m, ?_⟩
  rw [Nat.mul_comm] at hsplit
  omega

theorem reduce_le (hm : 0 < m) (n : Nat) : reduce m n ≤ m := by
  rcases Nat.eq_zero_or_pos n with rfl | hn
  · exact Nat.zero_le m
  · exact (exists_reduce hm hn).2.1

/-- Multiples of `m` do not matter, next to a positive number. -/
theorem reduce_add (hm : 0 < m) {n : Nat} (hn : 0 < n) (q : Nat) : reduce m (n + q * m) = reduce m n := by
  obtain ⟨hpos, hle, p, hp⟩ := exists_reduce hm hn
  calc reduce m (n + q * m) = reduce m (reduce m n + (p + q) * m) := by rw [Nat.add_mul, ← Nat.add_assoc, ← hp]
    _ = reduce m n := reduce_add_mul hpos hle _

theorem reduce_of_lt {n : Nat} (h : m < n) (hle : n ≤ 2 * m) : reduce m n = n - m := by
  have hback : n = (n - m) + 1 * m := by omega
  calc reduce m n = reduce m ((n - m) + 1 * m) := congrArg (reduce m) hback
    _ = n - m := reduce_add_mul (by omega) (by omega) 1

theorem add_reduce (hm : 0 < m) (n : Nat) {w : Nat} (hw : w ≤ m) : add m (reduce m n) w = reduce m (n + w) := by
  rcases Nat.eq_zero_or_pos n with rfl | hn
  · have hsmall : ¬ m < 0 + w := by omega
    rw [Nat.zero_add, reduce_of_le hw]
    simp [add, reduce, Nat.not_lt.mpr hw]
  obtain ⟨hpos, hle, q, hq⟩ := exists_reduce hm hn
  have hnext : n + w = (reduce m n + w) + q * m := by omega
  rw [hnext, reduce_add hm (Nat.add_pos_left hpos w), add]
  split_ifs with hcarry
  · exact (reduce_of_lt hcarry (by omega)).symm
  · exact (reduce_of_le (Nat.not_lt.mp hcarry)).symm

theorem sum_eq (hm : 0 < m) {ws : List Nat} (hws : ∀ w ∈ ws, w ≤ m) : sum m ws = reduce m ws.sum := by
  have hfold : ∀ n, ws.foldl (add m) (reduce m n) = reduce m (n + ws.sum) := by
    induction ws with
    | nil => simp
    | cons w ws ih =>
      obtain ⟨hw, hws⟩ := List.forall_mem_cons.mp hws
      intro n
      rw [List.foldl_cons, add_reduce hm n hw, ih hws, List.sum_cons, Nat.add_assoc]
  simpa [sum, reduce] using hfold 0

/-- Of a sum in a double word, two folds leave the ones' complement sum in the low word. -/
theorem fold_twice {n : Nat} (hm : 0 < m) (hn : n < (m + 1) * (m + 1)) :
    let s := n / (m + 1) + n % (m + 1)
    s ≤ 2 * m ∧ (s + s / (m + 1)) % (m + 1) = reduce m n := by
  intro s
  have hhigh : n / (m + 1) < m + 1 := Nat.div_lt_of_lt_mul hn
  have hlow : n % (m + 1) < m + 1 := Nat.mod_lt n (Nat.succ_pos m)
  have hsplit : n = s + n / (m + 1) * m := by
    have hdiv := Nat.mod_add_div n (m + 1)
    rw [Nat.mul_comm, Nat.mul_succ] at hdiv
    omega
  have hs : s ≤ 2 * m := by omega
  refine ⟨hs, ?_⟩
  have hsame : reduce m s = reduce m n := by
    rcases Nat.eq_zero_or_pos s with h0 | hpos
    · have hzero : n / (m + 1) = 0 := (Nat.add_eq_zero_iff.mp h0).1
      rw [hzero, Nat.zero_mul, Nat.add_zero] at hsplit
      rw [← hsplit]
    · exact (reduce_add hm hpos _).symm.trans (congrArg (reduce m) hsplit.symm)
  rw [← hsame]
  by_cases hfit : s ≤ m
  · rw [Nat.div_eq_of_lt (by omega), Nat.add_zero, Nat.mod_eq_of_lt (by omega), reduce_of_le hfit]
  · have hcarry : s / (m + 1) = 1 := Nat.div_eq_of_lt_le (by omega) (by omega)
    have hwrap : s + 1 = (s - m) + (m + 1) := by omega
    rw [hcarry, hwrap, Nat.add_mod_right, Nat.mod_eq_of_lt (by omega), reduce_of_lt (by omega) hs]

/-- With the complement of its sum, a sum is all ones. -/
theorem reduce_add_compl (hm : 0 < m) (n : Nat) : reduce m (n + (m - reduce m n)) = m := by
  rcases Nat.eq_zero_or_pos n with rfl | hn
  · rw [Nat.zero_add]
    exact reduce_of_le (Nat.le_refl m)
  · obtain ⟨hpos, hle, q, hq⟩ := exists_reduce hm hn
    have hmul : n + (m - reduce m n) = m + q * m := by omega
    rw [hmul, reduce_add_mul hm (Nat.le_refl m)]

end UdjatNetwork.OnesComplement
