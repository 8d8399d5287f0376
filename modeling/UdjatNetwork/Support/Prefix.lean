import Mathlib.Data.Set.Lattice
import Mathlib.Order.CompletePartialOrder

/-! # Prefixes of words

The words that begin with the same bits as a given one. Such blocks are nested or disjoint, and a mask that begins
with as many ones finds out what is in them. -/

namespace UdjatNetwork.Prefix

variable {w k : Nat} {a b c : BitVec w}

/-- The first `k` bits are the same, the highest one first. -/
def Same (k : Nat) (a b : BitVec w) : Prop := ∀ i < k, a.getMsbD i = b.getMsbD i

def block (k : Nat) (b : BitVec w) : Set (BitVec w) := {a | Same k a b}

theorem Same.symm (h : Same k a b) : Same k b a := fun i hi => (h i hi).symm

theorem Same.trans (hab : Same k a b) (hbc : Same k b c) : Same k a c := fun i hi => (hab i hi).trans (hbc i hi)

theorem Same.mono {j : Nat} (hjk : j ≤ k) (h : Same k a b) : Same j a b := fun i hi => h i (hi.trans_le hjk)

theorem same_width : Same w a b ↔ a = b := by
  constructor
  · exact BitVec.eq_of_getMsbD_eq
  · rintro rfl i -
    rfl

theorem and_eq_and_iff {m : BitVec w} (hk : k ≤ w) (hm : ∀ i < w, m.getMsbD i = decide (i < k)) :
    a &&& m = b &&& m ↔ Same k a b := by
  constructor
  · intro he i hi
    have hbit := congrArg (BitVec.getMsbD · i) he
    simpa [BitVec.getMsbD_and, hm i (hi.trans_le hk), hi] using hbit
  · refine fun hs => BitVec.eq_of_getMsbD_eq fun i hi => ?_
    rw [BitVec.getMsbD_and, BitVec.getMsbD_and, hm i hi]
    by_cases hik : i < k
    · rw [hs i hik]
    · simp [hik]

/-! ### Blocks -/

theorem block_antitone (b : BitVec w) : Antitone fun k => block k b := fun _ _ hjk _ h => Same.mono hjk h

@[simp] theorem block_zero (b : BitVec w) : block 0 b = Set.univ :=
  Set.eq_univ_of_forall fun _ _ hi => absurd hi (Nat.not_lt_zero _)

@[simp] theorem block_width (b : BitVec w) : block w b = {b} := Set.ext fun _ => same_width

/-- A block around a word of a longer prefix is in the block of the shorter one, or apart from it. -/
theorem block_subset_or_disjoint {j : Nat} (hjk : j ≤ k) (a b : BitVec w) :
    block k b ⊆ block j a ∨ Disjoint (block j a) (block k b) := by
  by_cases hba : Same j b a
  · exact Or.inl fun x hx => (Same.mono hjk hx).trans hba
  · refine Or.inr (Set.disjoint_left.mpr fun x hxa hxb => hba ?_)
    exact (Same.mono hjk hxb).symm.trans hxa

theorem nested_or_disjoint (j k : Nat) (a b : BitVec w) :
    Disjoint (block j a) (block k b) ∨ block j a ⊆ block k b ∨ block k b ⊆ block j a := by
  rcases Nat.le_total j k with hjk | hkj
  · exact (block_subset_or_disjoint hjk a b).symm.imp_right Or.inr
  · exact (block_subset_or_disjoint hkj b a).symm.imp (fun hdisj => hdisj.symm) Or.inl

end UdjatNetwork.Prefix
