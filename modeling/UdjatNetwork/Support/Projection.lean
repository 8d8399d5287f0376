import UdjatNetwork.Support.Machine

/-! # Projections

A machine that is seen through a view as another one: each of its steps is a few steps of the other machine, perhaps
none. So is then each of its runs, and what holds all along the run of the other machine holds of the view. -/

namespace UdjatNetwork.Machine
variable {σ τ υ ι κ μ β : Type} {step : σ → ι → Option σ} {step' : τ → κ → Option τ} {step'' : υ → μ → Option υ}

/-- From a state with `I`, a step on an input that `C` allows leads to a state with `I`, and the other machine takes the
    `inputs` of the step from the one view to the other. -/
structure Projects (step : σ → ι → Option σ) (step' : τ → κ → Option τ) (I : σ → Prop) (C : σ → ι → Prop)
    (view : σ → τ) (inputs : σ → ι → List κ) : Prop where
  keeps : ∀ s i t, I s → C s i → step s i = some t → I t
  run : ∀ s i t, I s → C s i → step s i = some t → exec step' (view s) (inputs s i) = some (view t)

/-- The inputs that the other machine takes along a run. -/
def trace (step : σ → ι → Option σ) (inputs : σ → ι → List κ) : σ → List ι → List κ
  | _, [] => []
  | s, i :: is => inputs s i ++ ((step s i).map fun t => trace step inputs t is).getD []

theorem trace_cons {inputs : σ → ι → List κ} {s t : σ} {i : ι} (ht : step s i = some t) (is : List ι) :
    trace step inputs s (i :: is) = inputs s i ++ trace step inputs t is := by
  rw [trace, ht]
  rfl

/-- What the inputs of every step tell of its output, those of the run tell of all that is put out. -/
theorem trace_output {inputs : σ → ι → List κ} {out : σ → List β} {g : κ → List β} {I : σ → Prop} {C : σ → ι → Prop}
    (hI : ∀ s i t, I s → C s i → step s i = some t → I t)
    (hout : ∀ s i t, I s → C s i → step s i = some t → out t = out s ++ (inputs s i).flatMap g)
    {s t : σ} {is : List ι} (hs : I s) (hC : Along step C s is) (ht : exec step s is = some t) :
    out t = out s ++ (trace step inputs s is).flatMap g := by
  induction is generalizing s with
  | nil =>
    cases ht
    exact (List.append_nil _).symm
  | cons i is ih =>
    obtain ⟨u, hu, ht⟩ := exec_cons_eq_some.mp ht
    rw [ih (hI s i u hs hC.1 hu) (hC.2 u hu) ht, hout s i u hs hC.1 hu, trace_cons hu, List.flatMap_append,
      List.append_assoc]

/-- What every input contributes to those of the other machine, all of them do to the whole of a run. -/
theorem trace_inputs {inputs : σ → ι → List κ} {g : κ → List β} {h : ι → List β} {I : σ → Prop} {C : σ → ι → Prop}
    (hI : ∀ s i t, I s → C s i → step s i = some t → I t)
    (hg : ∀ s i t, I s → C s i → step s i = some t → (inputs s i).flatMap g = h i)
    {s t : σ} {is : List ι} (hs : I s) (hC : Along step C s is) (ht : exec step s is = some t) :
    (trace step inputs s is).flatMap g = is.flatMap h := by
  induction is generalizing s with
  | nil => rfl
  | cons i is ih =>
    obtain ⟨u, hu, ht⟩ := exec_cons_eq_some.mp ht
    rw [trace_cons hu, List.flatMap_append, hg s i u hs hC.1 hu, ih (hI s i u hs hC.1 hu) (hC.2 u hu) ht,
      List.flatMap_cons]

/-- A part of the inputs of every step is that part of those of a run. -/
theorem trace_flatMap {inputs : σ → ι → List κ} {inputs' : σ → ι → List β} {g : κ → List β}
    (h : ∀ s i, (inputs s i).flatMap g = inputs' s i) (s : σ) (is : List ι) :
    (trace step inputs s is).flatMap g = trace step inputs' s is := by
  induction is generalizing s with
  | nil => rfl
  | cons i is ih =>
    rw [trace, trace, List.flatMap_append, h]
    cases step s i with
    | none => rfl
    | some t => exact congrArg (inputs' s i ++ ·) (ih t)

theorem Always.append {P : τ → Prop} {a b : τ} {js ks : List κ} (h : Always step' P a (js ++ ks))
    (he : exec step' a js = some b) : Always step' P b ks := by
  induction js generalizing a with
  | nil =>
    cases he
    exact h
  | cons j js ih =>
    obtain ⟨c, hc, he⟩ := exec_cons_eq_some.mp he
    exact ih (h.2 c hc) he

namespace Projects
variable {I : σ → Prop} {C : σ → ι → Prop} {view : σ → τ} {inputs : σ → ι → List κ}

/-- A run is a run of the other machine, on the inputs of its steps. -/
theorem exec (h : Projects step step' I C view inputs) {s t : σ} {is : List ι} (hs : I s) (hC : Along step C s is)
    (ht : Machine.exec step s is = some t) :
    Machine.exec step' (view s) (trace step inputs s is) = some (view t) := by
  induction is generalizing s with
  | nil =>
    cases ht
    rfl
  | cons i is ih =>
    obtain ⟨u, hu, ht⟩ := exec_cons_eq_some.mp ht
    rw [trace_cons hu, exec_append, h.run s i u hs hC.1 hu]
    exact ih (h.keeps s i u hs hC.1 hu) (hC.2 u hu) ht

/-- What holds all along the run of the other machine, holds of the view all along the run. -/
theorem always (h : Projects step step' I C view inputs) {P : τ → Prop} {s : σ} {is : List ι} (hs : I s)
    (hC : Along step C s is) (hP : Always step' P (view s) (trace step inputs s is)) :
    Always step (fun s => P (view s)) s is := by
  induction is generalizing s with
  | nil => exact hP.first
  | cons i is ih =>
    refine ⟨hP.first, fun u hu => ih (h.keeps s i u hs hC.1 hu) (hC.2 u hu) ?_⟩
    rw [trace_cons hu] at hP
    exact hP.append (h.run s i u hs hC.1 hu)

/-- Where the view is of something that may be missing, and is there all along: a run of the whole is one of it. -/
theorem exec_some {J : σ → Prop} {part : σ → Option τ} {d : τ}
    (h : Projects step step' (fun s => J s ∧ (part s).isSome) C (fun s => (part s).getD d) inputs) {s t : σ} {a : τ}
    {is : List ι} (hJ : J s) (ha : part s = some a) (hC : Along step C s is) (ht : Machine.exec step s is = some t) :
    ∃ b, part t = some b ∧ Machine.exec step' a (trace step inputs s is) = some b := by
  have hs : J s ∧ (part s).isSome := ⟨hJ, Option.isSome_iff_exists.mpr ⟨a, ha⟩⟩
  obtain ⟨b, hb⟩ := Option.isSome_iff_exists.mp ((always_of_along h.keeps hs hC).of_exec ht).2
  have hrun := h.exec hs hC ht
  rw [ha, hb] at hrun
  exact ⟨b, hb, hrun⟩

/-- A view of a view, where the second projection allows every input. -/
theorem comp {J : τ → Prop} {view' : τ → υ} {inputs' : τ → κ → List μ} (h : Projects step step' I C view inputs)
    (h' : Projects step' step'' J (fun _ _ => True) view' inputs') :
    Projects step step'' (fun s => I s ∧ J (view s)) C (view' ∘ view)
      (fun s i => trace step' inputs' (view s) (inputs s i)) where
  keeps s i t hs hC ht := by
    refine ⟨h.keeps s i t hs.1 hC ht, ?_⟩
    have hall : Always step' J (view s) (inputs s i) :=
      always_of_step (fun a k b ha hb => h'.keeps a k b ha trivial hb) hs.2 _
    exact hall.of_exec (h.run s i t hs.1 hC ht)
  run s i t hs hC ht :=
    h'.exec hs.2 ((along_of_forall (C := fun _ => True) fun _ _ => trivial)) (h.run s i t hs.1 hC ht)

end Projects
end UdjatNetwork.Machine
