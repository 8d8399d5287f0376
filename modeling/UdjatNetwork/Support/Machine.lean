import Mathlib.Data.Option.Basic
import Mathlib.Data.List.Basic
import Mathlib.Data.List.Induction

/-! # Machines

Runs of a machine whose steps may be undefined: `step s i = none` when the input `i` has no defined
effect in the state `s`. A property of the states that a run passes is proved by an invariant
(`always_of_along`), and a bad step is found back by the state that it leaves (`along_of_always`). -/

namespace UdjatNetwork

/-- How a call ends: it returns, an exception leaves it (what it did until then stays done), or its
    behaviour is undefined. -/
inductive Outcome (α : Type) where
  | ok (a : α)
  | threw (a : α)
  | undefined
deriving Repr, DecidableEq

namespace Outcome
variable {α β : Type}

/-- The state a call leaves, by return or by exception. -/
def state? : Outcome α → Option α
  | ok a => some a
  | threw a => some a
  | undefined => none

def map (f : α → β) : Outcome α → Outcome β
  | ok a => ok (f a)
  | threw a => threw (f a)
  | undefined => undefined

@[simp] theorem state?_map (f : α → β) (o : Outcome α) : (o.map f).state? = o.state?.map f := by
  cases o <;> rfl

@[simp] theorem state?_ok (a : α) : (ok a).state? = some a := rfl

@[simp] theorem state?_threw (a : α) : (threw a).state? = some a := rfl

@[simp] theorem state?_undefined : (undefined : Outcome α).state? = none := rfl

end Outcome

namespace Machine
variable {σ ι : Type} {step : σ → ι → Option σ}

/-- The state that a list of inputs leads to, when every step is defined. -/
def exec (step : σ → ι → Option σ) : σ → List ι → Option σ
  | s, [] => some s
  | s, i :: is => (step s i).bind fun t => exec step t is

/-- Every input is taken in a state in which `C` allows it. -/
def Along (step : σ → ι → Option σ) (C : σ → ι → Prop) : σ → List ι → Prop
  | _, [] => True
  | s, i :: is => C s i ∧ ∀ t, step s i = some t → Along step C t is

/-- `P` holds in every state that the run passes, the first one included. -/
def Always (step : σ → ι → Option σ) (P : σ → Prop) : σ → List ι → Prop
  | s, [] => P s
  | s, i :: is => P s ∧ ∀ t, step s i = some t → Always step P t is

theorem exec_cons_eq_some {s t : σ} {i : ι} {is : List ι} :
    exec step s (i :: is) = some t ↔ ∃ u, step s i = some u ∧ exec step u is = some t := by
  simp [exec, Option.bind_eq_some_iff]

theorem exec_append {s : σ} {is js : List ι} :
    exec step s (is ++ js) = (exec step s is).bind fun t => exec step t js := by
  induction is generalizing s with
  | nil => rfl
  | cons i is ih =>
    simp only [List.cons_append, exec, Option.bind_assoc]
    exact congrArg _ (funext fun t => ih)

theorem exec_total (htotal : ∀ s i, ∃ t, step s i = some t) (s : σ) (is : List ι) : ∃ t, exec step s is = some t := by
  induction is generalizing s with
  | nil => exact ⟨s, rfl⟩
  | cons i is ih =>
    obtain ⟨u, hu⟩ := htotal s i
    obtain ⟨t, ht⟩ := ih u
    exact ⟨t, exec_cons_eq_some.mpr ⟨u, hu, ht⟩⟩

/-- What every step keeps of the inputs so far and the state they lead to. -/
theorem exec_induct {I : List ι → σ → Prop} {s : σ} (init : I [] s)
    (next : ∀ is t i u, I is t → step t i = some u → I (is ++ [i]) u) {is : List ι} {t : σ}
    (ht : exec step s is = some t) : I is t := by
  induction is using List.reverseRecOn generalizing t with
  | nil =>
    cases ht
    exact init
  | append_singleton is i ih =>
    rw [exec_append, Option.bind_eq_some_iff] at ht
    obtain ⟨u, hu, ht⟩ := ht
    obtain ⟨v, hv, ht⟩ := exec_cons_eq_some.mp ht
    cases ht
    exact next is u i _ (ih hu) hv

theorem Always.first {P : σ → Prop} {s : σ} {is : List ι} (h : Always step P s is) : P s := by
  cases is with
  | nil => exact h
  | cons i is => exact h.1

theorem Always.of_exec {P : σ → Prop} {s t : σ} {is : List ι} (h : Always step P s is)
    (he : exec step s is = some t) : P t := by
  induction is generalizing s with
  | nil =>
    cases he
    exact h
  | cons i is ih =>
    obtain ⟨u, hu, he⟩ := exec_cons_eq_some.mp he
    exact ih (h.2 u hu) he

theorem Always.mono {P Q : σ → Prop} (hPQ : ∀ s, P s → Q s) {s : σ} {is : List ι}
    (h : Always step P s is) : Always step Q s is := by
  induction is generalizing s with
  | nil => exact hPQ s h
  | cons i is ih => exact ⟨hPQ s h.1, fun t ht => ih (h.2 t ht)⟩

theorem Along.mono {C D : σ → ι → Prop} (hCD : ∀ s i, C s i → D s i) {s : σ} {is : List ι}
    (h : Along step C s is) : Along step D s is := by
  induction is generalizing s with
  | nil => trivial
  | cons i is ih => exact ⟨hCD s i h.1, fun t ht => ih (h.2 t ht)⟩

theorem Along.of_exec_append {C : σ → ι → Prop} {s t : σ} {is js : List ι} (h : Along step C s (is ++ js))
    (he : exec step s is = some t) : Along step C t js := by
  induction is generalizing s with
  | nil =>
    cases he
    exact h
  | cons i is ih =>
    obtain ⟨u, hu, he⟩ := exec_cons_eq_some.mp he
    exact ih (h.2 u hu) he

theorem Always.along {P : σ → Prop} {s : σ} {is : List ι} (h : Always step P s is) :
    Along step (fun s _ => P s) s is := by
  induction is generalizing s with
  | nil => trivial
  | cons i is ih => exact ⟨h.1, fun t ht => ih (h.2 t ht)⟩

theorem Along.and {C D : σ → ι → Prop} {s : σ} {is : List ι} (hC : Along step C s is)
    (hD : Along step D s is) : Along step (fun s i => C s i ∧ D s i) s is := by
  induction is generalizing s with
  | nil => trivial
  | cons i is ih => exact ⟨⟨hC.1, hD.1⟩, fun t ht => ih (hC.2 t ht) (hD.2 t ht)⟩

theorem along_and {C D : σ → ι → Prop} {s : σ} {is : List ι} :
    Along step (fun s i => C s i ∧ D s i) s is ↔ Along step C s is ∧ Along step D s is :=
  ⟨fun h => ⟨h.mono fun _ _ => And.left, h.mono fun _ _ => And.right⟩, fun h => h.1.and h.2⟩

theorem along_of_forall {C : ι → Prop} {s : σ} {is : List ι} (h : ∀ i ∈ is, C i) :
    Along step (fun _ i => C i) s is := by
  induction is generalizing s with
  | nil => trivial
  | cons i is ih =>
    exact ⟨h i List.mem_cons_self, fun t _ => ih fun j hj => h j (List.mem_cons_of_mem i hj)⟩

theorem along_iff_forall (htotal : ∀ s i, ∃ t, step s i = some t) {C : ι → Prop} {s : σ} {is : List ι} :
    Along step (fun _ i => C i) s is ↔ ∀ i ∈ is, C i := by
  refine ⟨fun h => ?_, along_of_forall⟩
  induction is generalizing s with
  | nil => exact fun i hi => by cases hi
  | cons i is ih =>
    obtain ⟨t, ht⟩ := htotal s i
    exact List.forall_mem_cons.mpr ⟨h.1, ih (h.2 t ht)⟩

/-- An invariant that every allowed step keeps holds all along a run of allowed steps. -/
theorem always_of_along {I : σ → Prop} {C : σ → ι → Prop}
    (hstep : ∀ s i t, I s → C s i → step s i = some t → I t) {s : σ} {is : List ι} (hs : I s)
    (hC : Along step C s is) : Always step I s is := by
  induction is generalizing s with
  | nil => exact hs
  | cons i is ih => exact ⟨hs, fun t ht => ih (hstep s i t hs hC.1 ht) (hC.2 t ht)⟩

/-- An invariant that every step keeps holds all along every run. -/
theorem always_of_step {I : σ → Prop} (hstep : ∀ s i t, I s → step s i = some t → I t) {s : σ}
    (hs : I s) (is : List ι) : Always step I s is := by
  induction is generalizing s with
  | nil => exact hs
  | cons i is ih => exact ⟨hs, fun t ht => ih (hstep s i t hs ht)⟩

/-- If a forbidden step always leaves a state without `P`, a run that never loses `P` takes allowed
    steps only. `J` is what the run is known to keep. -/
theorem along_of_always {P J : σ → Prop} {C : σ → ι → Prop}
    (hJ : ∀ s i t, J s → P s → step s i = some t → P t → J t)
    (hbad : ∀ s i, J s → P s → (∀ t, step s i = some t → P t) → C s i) {s : σ} {is : List ι}
    (hs : J s) (hP : Always step P s is) : Along step C s is := by
  induction is generalizing s with
  | nil => trivial
  | cons i is ih =>
    have hfirst : ∀ t, step s i = some t → P t := fun t ht => (hP.2 t ht).first
    exact ⟨hbad s i hs hP.1 hfirst, fun t ht => ih (hJ s i t hs hP.1 ht (hfirst t ht)) (hP.2 t ht)⟩

/-! ### Two machines in lockstep -/

section Pair
variable {τ : Type} {step' : τ → ι → Option τ}

/-- Both machines take the input. -/
def pair (step : σ → ι → Option σ) (step' : τ → ι → Option τ) (p : σ × τ) (i : ι) : Option (σ × τ) :=
  (step p.1 i).bind fun s => (step' p.2 i).map (s, ·)

/-- While `D` allows the inputs, the first machine is an image of the second one, which is known to keep `I`;
    so what is asked of both is asked of the second one alone. -/
theorem along_pair_iff {f : τ → σ} {C : σ × τ → ι → Prop} {D : τ → ι → Prop} {I : τ → Prop} {O : ι → Prop}
    (hI : ∀ t i u, I t → step' t i = some u → I u)
    (hCD : ∀ t i, I t → O i → (C (f t, t) i ↔ D t i))
    (hmap : ∀ t i, I t → O i → D t i → step (f t) i = (step' t i).map f)
    {t : τ} {is : List ι} (ht : I t) (hO : ∀ i ∈ is, O i) :
    Along (pair step step') C (f t, t) is ↔ Along step' D t is := by
  induction is generalizing t with
  | nil => exact Iff.rfl
  | cons i is ih =>
    obtain ⟨hi, his⟩ := List.forall_mem_cons.mp hO
    refine (and_congr_left' (hCD t i ht hi)).trans (and_congr_right fun hD => ?_)
    have hnext : pair step step' (f t, t) i = (step' t i).map fun u => (f u, u) := by
      unfold pair
      rw [hmap t i ht hi hD]
      cases step' t i <;> rfl
    rw [hnext]
    constructor
    · exact fun h u hu => (ih (hI t i u ht hu) his).mp (h (f u, u) (by rw [hu]; rfl))
    · intro h p hp
      obtain ⟨u, hu, rfl⟩ := Option.map_eq_some_iff.mp hp
      exact (ih (hI t i u ht hu) his).mpr (h u hu)

end Pair
end Machine
end UdjatNetwork
