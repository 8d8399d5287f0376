import Mathlib.Logic.Function.Basic
import UdjatNetwork.Support.Machine

/-! # Mail for a family of machines

Machines of one kind, known by keys, and mail that is handed out piece by piece: each piece is an input of the machine
that it is addressed to. A machine takes its own mail, in its order, and does not see that of the others. -/

namespace UdjatNetwork.Machine
variable {κ α ι : Type} [DecidableEq κ] {step : α → ι → Option α} {members members' : κ → Option α} {l : List (κ × ι)}

/-- The members after the mail; undefined, when some piece is for a member that does not exist. -/
def dispatch (step : α → ι → Option α) (members : κ → Option α) : List (κ × ι) → Option (κ → Option α)
  | [] => some members
  | (k, i) :: l =>
    (members k).bind fun a => (step a i).bind fun b => dispatch step (Function.update members k (some b)) l

/-- The mail for a member. -/
def inbox (k : κ) (l : List (κ × ι)) : List ι := (l.filter fun p => p.1 = k).map (·.2)

theorem inbox_append (k : κ) (l l' : List (κ × ι)) : inbox k (l ++ l') = inbox k l ++ inbox k l' := by
  simp [inbox]

theorem inbox_cons (k : κ) (p : κ × ι) (l : List (κ × ι)) :
    inbox k (p :: l) = (if p.1 = k then [p.2] else []) ++ inbox k l := by
  unfold inbox
  rw [List.filter_cons]
  split_ifs <;> simp_all

theorem dispatch_append {l' : List (κ × ι)} :
    dispatch step members (l ++ l') = (dispatch step members l).bind fun members => dispatch step members l' := by
  induction l generalizing members with
  | nil => rfl
  | cons p l ih =>
    simp only [List.cons_append, dispatch, Option.bind_assoc]
    exact congrArg _ (funext fun a => congrArg _ (funext fun b => ih))

/-- Each member runs on its own mail. -/
theorem dispatch_eq_some (h : dispatch step members l = some members') (k : κ) :
    members' k = (members k).bind fun a => exec step a (inbox k l) := by
  induction l generalizing members with
  | nil =>
    cases h
    exact (Option.bind_fun_some _).symm
  | cons p l ih =>
    obtain ⟨a, ha, h⟩ := Option.bind_eq_some_iff.mp h
    obtain ⟨b, hb, h⟩ := Option.bind_eq_some_iff.mp h
    rw [ih h, inbox_cons]
    by_cases hk : p.1 = k
    · subst hk
      rw [Function.update_self, ha, Option.bind_some, Option.bind_some, if_pos rfl, List.singleton_append, exec, hb,
        Option.bind_some]
    · rw [Function.update_of_ne (Ne.symm hk), if_neg hk, List.nil_append]

/-- Members whose steps are all defined take whatever is addressed to members that exist. -/
theorem exists_dispatch (htotal : ∀ a i, ∃ b, step a i = some b) (hl : ∀ p ∈ l, (members p.1).isSome) :
    ∃ members', dispatch step members l = some members' := by
  induction l generalizing members with
  | nil => exact ⟨members, rfl⟩
  | cons p l ih =>
    obtain ⟨hp, hl⟩ := List.forall_mem_cons.mp hl
    obtain ⟨a, ha⟩ := Option.isSome_iff_exists.mp hp
    obtain ⟨b, hb⟩ := htotal a p.2
    have hnext : ∀ q ∈ l, (Function.update members p.1 (some b) q.1).isSome := fun q hq => by
      by_cases hk : q.1 = p.1
      · rw [hk, Function.update_self]
        rfl
      · rw [Function.update_of_ne hk]
        exact hl q hq
    obtain ⟨members', h⟩ := ih hnext
    refine ⟨members', ?_⟩
    rw [dispatch, ha, Option.bind_some, hb, Option.bind_some, h]

end UdjatNetwork.Machine
