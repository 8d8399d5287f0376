import UdjatNetwork.Support.Machine

/-! # Views that are brought up to date on request

A member of a machine shows something that is computed from the state, but it is computed only when the member is updated.
A step may ask for an update, which then is due, and comes later or not at all. If no step changes what the member should
show without asking, what it shows is right whenever no update is due. -/

namespace UdjatNetwork.Machine
variable {σ ι β : Type}

/-- A machine, what a member was last seen to show, and whether an update of it is due. -/
structure Shown (σ β : Type) where
  state : σ
  shown : Option β
  due : Bool

/-- A step of the machine, or the update of the member. -/
inductive Turn (ι : Type) where
  | call (i : ι)
  | update

/-- The member has shown nothing, and nothing is due. -/
def Shown.start (s : σ) : Shown σ β where
  state := s
  shown := none
  due := false

def turn (step : σ → ι → Option σ) (view : σ → β) (asks : σ → ι → Bool) (s : Shown σ β) : Turn ι → Option (Shown σ β)
  | .call i => (step s.state i).map fun t => { s with state := t, due := s.due || asks s.state i }
  | .update => some { s with shown := some (view s.state), due := false }

/-- An update is due, or the member shows what it should, or it has not been updated and has not begun. -/
def Shown.Current (view : σ → β) (Fresh : σ → Prop) (s : Shown σ β) : Prop :=
  s.due = true ∨ s.shown = some (view s.state) ∨ s.shown = none ∧ Fresh s.state

/-- A member that a step leaves to exist has existed; and if `C` holds of the step, it has asked for an update unless what the
    member should show is the same, and what holds of it before it has begun is kept. -/
structure Asking (step : σ → ι → Option σ) (view : σ → β) (asks : σ → ι → Bool) (Lives Fresh : σ → Prop)
    (C : σ → ι → Prop) : Prop where
  lives : ∀ {s i t}, step s i = some t → Lives t → Lives s
  keeps : ∀ {s i t}, step s i = some t → Lives t → C s i → asks s i = false → view t = view s
  fresh : ∀ {s i t}, step s i = some t → Lives t → C s i → asks s i = false → Fresh s → Fresh t

variable {step : σ → ι → Option σ} {view : σ → β} {asks : σ → ι → Bool} {Lives Fresh : σ → Prop} {C : σ → ι → Prop}

theorem Asking.current (h : Asking step view asks Lives Fresh C) {s t : Shown σ β} {i : Turn ι}
    (hs : Lives s.state → s.Current view Fresh) (hC : ∀ j, i = .call j → C s.state j)
    (ht : turn step view asks s i = some t) (hk : Lives t.state) : t.Current view Fresh := by
  cases i with
  | call i =>
    obtain ⟨u, hu, rfl⟩ := Option.map_eq_some_iff.mp ht
    have hi : C s.state i := hC i rfl
    cases ha : asks s.state i with
    | true => exact Or.inl (Bool.or_eq_true_iff.mpr (Or.inr rfl))
    | false =>
      rcases hs (h.lives hu hk) with hdue | hshown | ⟨hnone, hfresh⟩
      · exact Or.inl (Bool.or_eq_true_iff.mpr (Or.inl hdue))
      · exact Or.inr (Or.inl (hshown.trans (congrArg some (h.keeps hu hk hi ha).symm)))
      · exact Or.inr (Or.inr ⟨hnone, h.fresh hu hk hi ha hfresh⟩)
  | update =>
    cases ht
    exact Or.inr (Or.inl rfl)

/-- All along a run, whatever is asked and however late the updates come, a member that exists shows what it should,
    unless an update of it is due or it has not begun. -/
theorem Asking.always (h : Asking step view asks Lives Fresh C) {s : σ} (hfresh : Lives s → Fresh s) {is : List (Turn ι)}
    (hC : Along (turn step view asks) (fun s i => ∀ j, i = .call j → C s.state j) (.start s) is) :
    Always (turn step view asks) (fun s => Lives s.state → s.Current view Fresh) (.start s) is :=
  always_of_along (fun _ _ _ hs hi ht => h.current hs hi ht) (fun hk => Or.inr (Or.inr ⟨rfl, hfresh hk⟩)) hC

end UdjatNetwork.Machine
