import Mathlib.Data.List.Find
import UdjatNetwork.Support.Machine

/-! # Removal passes over a linked list

`std::list::remove_if` calls its predicate on the nodes from the first to the last, and unlinks a node
when the predicate answers `drop`. The predicate may have effects, and an exception of it ends the pass
with the nodes unlinked so far. Two forms are needed:

* `sweep`, when the predicate leaves the list alone;
* `removeIf`, when the predicate may itself unlink nodes of the list. The successor of a node is read
  before the predicate is called on the node, so that the pass goes on from a dead node, which is
  undefined, when the call unlinked that successor. -/

namespace UdjatNetwork.Pass

/-- The answer of a predicate: keep the node, unlink it, or leave by an exception. -/
inductive Verdict where
  | keep
  | drop
  | raise
deriving Repr, DecidableEq

/-! ## Predicates that leave the list alone -/

section Sweep
variable {α ω : Type} (pred : α → ω → ω × Verdict)

/-- The nodes left, what the calls made of the rest of the state, and whether an exception ended the
    pass. -/
def sweep : List α → ω → List α × ω × Bool
  | [], w => ([], w, false)
  | a :: as, w =>
    match pred a w with
    | (w', .keep) => (a :: (sweep as w').1, (sweep as w').2)
    | (w', .drop) => sweep as w'
    | (w', .raise) => (a :: as, w', true)

/-- What every call of the predicate keeps, of the list as it then is and of the rest of the state,
    holds after the pass. -/
theorem sweep_induct {I : List α → ω → Prop}
    (keep : ∀ pre a post w w', I (pre ++ a :: post) w → pred a w = (w', .keep) → I (pre ++ a :: post) w')
    (drop : ∀ pre a post w w', I (pre ++ a :: post) w → pred a w = (w', .drop) → I (pre ++ post) w')
    (raise : ∀ pre a post w w', I (pre ++ a :: post) w → pred a w = (w', .raise) → I (pre ++ a :: post) w')
    {l : List α} {w : ω} (h : I l w) : I (sweep pred l w).1 (sweep pred l w).2.1 := by
  -- The nodes already passed and kept stand before the rest of the list.
  suffices key : ∀ (l : List α) (w : ω) (pre : List α), I (pre ++ l) w →
      I (pre ++ (sweep pred l w).1) (sweep pred l w).2.1 from key l w [] h
  intro l
  induction l with
  | nil => exact fun w pre h => h
  | cons a as ih =>
    intro w pre h
    rcases hp : pred a w with ⟨w', _ | _ | _⟩
    · have h' : I ((pre ++ [a]) ++ as) w' := by simpa using keep pre a as w w' h hp
      simpa [sweep, hp] using ih w' (pre ++ [a]) h'
    · simpa [sweep, hp] using ih w' pre (drop pre a as w w' h hp)
    · simpa [sweep, hp] using raise pre a as w w' h hp

theorem sweep_keeps {β : Type} (f : ω → β) (hpred : ∀ a w w' v, pred a w = (w', v) → f w' = f w) (l : List α) (w : ω) :
    f (sweep pred l w).2.1 = f w := by
  have keep : ∀ {a : α} {u u' : ω} {v : Verdict}, f u = f w → pred a u = (u', v) → f u' = f w := fun hu hp =>
    (hpred _ _ _ _ hp).trans hu
  exact sweep_induct pred (I := fun _ u => f u = f w) (fun _ _ _ _ _ hu hp => keep hu hp)
    (fun _ _ _ _ _ hu hp => keep hu hp) (fun _ _ _ _ _ hu hp => keep hu hp) rfl

theorem sweep_sublist (l : List α) (w : ω) : (sweep pred l w).1.Sublist l := by
  induction l generalizing w with
  | nil => exact .slnil
  | cons a as ih =>
    rcases hp : pred a w with ⟨w', _ | _ | _⟩
    · simpa [sweep, hp] using (ih w').cons_cons a
    · simpa [sweep, hp] using (ih w').cons a
    · simp [sweep, hp]

theorem mem_sweep {a : α} (ha : ∀ w, (pred a w).2 ≠ .drop) {l : List α} (hl : a ∈ l) (w : ω) :
    a ∈ (sweep pred l w).1 := by
  induction l generalizing w with
  | nil => cases hl
  | cons b bs ih =>
    rcases hp : pred b w with ⟨w', _ | _ | _⟩
    · simp only [sweep, hp]
      rcases List.mem_cons.mp hl with rfl | hl
      · exact List.mem_cons_self
      · exact List.mem_cons_of_mem b (ih hl w')
    · rcases List.mem_cons.mp hl with rfl | hl
      · exact absurd (by rw [hp]) (ha w)
      · simpa only [sweep, hp] using ih hl w'
    · simpa only [sweep, hp] using hl

/-- A pass that drops the nodes with `p`, each with the effect `f`, filters the list. -/
theorem sweep_eq {p : α → Bool} {f : α → ω → ω} {l : List α} (w : ω)
    (h : ∀ a ∈ l, ∀ w, pred a w = if p a then (f a w, .drop) else (w, .keep)) :
    sweep pred l w = (l.filter fun a => !p a, (l.filter p).foldl (fun w a => f a w) w, false) := by
  induction l generalizing w with
  | nil => rfl
  | cons a as ih =>
    have ih' := fun w => ih w fun b hb => h b (List.mem_cons_of_mem _ hb)
    have ha := h a List.mem_cons_self w
    cases hp : p a <;> simp only [hp, Bool.false_eq_true, if_true, if_false] at ha <;>
      simp [sweep, ha, hp, ih']

theorem sweep_of_keep {l : List α} (w : ω) (h : ∀ a ∈ l, ∀ w, pred a w = (w, .keep)) :
    sweep pred l w = (l, w, false) := by
  induction l with
  | nil => rfl
  | cons a as ih =>
    rw [sweep, h a List.mem_cons_self w]
    simp only [ih fun b hb => h b (List.mem_cons_of_mem a hb)]

theorem sweep_middle {pre post : List α} (a : α) (w : ω) (h : ∀ b ∈ pre ++ post, ∀ w, pred b w = (w, .keep)) :
    sweep pred (pre ++ a :: post) w =
      match pred a w with
      | (w', .keep) => (pre ++ a :: post, w', false)
      | (w', .drop) => (pre ++ post, w', false)
      | (w', .raise) => (pre ++ a :: post, w', true) := by
  induction pre with
  | nil =>
    have hpost : ∀ u, sweep pred post u = (post, u, false) := fun u => sweep_of_keep pred u h
    rw [List.nil_append, sweep]
    rcases pred a w with ⟨w', _ | _ | _⟩ <;> simp [hpost]
  | cons b bs ih =>
    rw [List.cons_append, sweep, h b List.mem_cons_self w]
    simp only [ih fun c hc => h c (List.mem_cons_of_mem b hc)]
    rcases pred a w with ⟨w', _ | _ | _⟩ <;> rfl

end Sweep

/-! ## Visits that change their member -/

/-- What a visit makes of a member: another one in its place, nothing, or the end of the pass. -/
inductive Visit (α : Type) where
  | keep (a : α)
  | drop
  | raise

section Visits
variable {α ω : Type} (f : α → ω → ω × Visit α)

/-- The members left, the rest of the state, and whether a visit ended the pass. -/
def visits : List α → ω → List α × ω × Bool
  | [], w => ([], w, false)
  | a :: as, w =>
    match f a w with
    | (w', .keep b) => (b :: (visits as w').1, (visits as w').2)
    | (w', .drop) => visits as w'
    | (w', .raise) => (a :: as, w', true)

theorem visits_append (as bs : List α) (w : ω) :
    visits f (as ++ bs) w =
      if (visits f as w).2.2 then ((visits f as w).1 ++ bs, (visits f as w).2)
      else ((visits f as w).1 ++ (visits f bs (visits f as w).2.1).1, (visits f bs (visits f as w).2.1).2) := by
  induction as generalizing w with
  | nil => rfl
  | cons a as ih =>
    rw [List.cons_append, visits, visits]
    rcases f a w with ⟨w', b | _ | _⟩
    · simp only [ih w']
      split_ifs <;> rfl
    · simp only [ih w']
    · rfl

/-- What every visit keeps of the rest of the state holds after the pass. -/
theorem visits_induct {I : ω → Prop} {l : List α} (hI : ∀ a ∈ l, ∀ w, I w → I (f a w).1) {w : ω} (h : I w) :
    I (visits f l w).2.1 := by
  induction l generalizing w with
  | nil => exact h
  | cons a as ih =>
    have hnext := hI a List.mem_cons_self w h
    have ih' : ∀ {u : ω}, I u → I (visits f as u).2.1 := ih fun b hb => hI b (List.mem_cons_of_mem a hb)
    rw [visits]
    rcases hf : f a w with ⟨w', b | _ | _⟩ <;> rw [hf] at hnext
    · exact ih' hnext
    · exact ih' hnext
    · exact hnext

theorem visits_sublist {κ : Type} {key : α → κ} (hkey : ∀ a w b, (f a w).2 = .keep b → key b = key a) (l : List α)
    (w : ω) : ((visits f l w).1.map key).Sublist (l.map key) := by
  induction l generalizing w with
  | nil => exact .slnil
  | cons a as ih =>
    rw [visits]
    rcases hf : f a w with ⟨w', b | _ | _⟩
    · rw [List.map_cons, hkey a w b (by rw [hf])]
      exact (ih w').cons_cons _
    · exact (ih w').cons _
    · exact List.Sublist.refl _

theorem mem_visits {κ : Type} {key : α → κ} {a : α} (ha : ∀ w, ∃ b, (f a w).2 = .keep b ∧ key b = key a) {l : List α}
    (hl : a ∈ l) (w : ω) : key a ∈ (visits f l w).1.map key := by
  induction l generalizing w with
  | nil => cases hl
  | cons c cs ih =>
    rw [visits]
    rcases hf : f c w with ⟨w', b | _ | _⟩ <;> rcases List.mem_cons.mp hl with rfl | hcs
    · obtain ⟨b', hb', hkey⟩ := ha w
      rw [hf] at hb'
      cases hb'
      simp [hkey]
    · exact List.mem_cons_of_mem _ (ih hcs w')
    · obtain ⟨b', hb', -⟩ := ha w
      rw [hf] at hb'
      cases hb'
    · exact ih hcs w'
    · exact List.mem_map.mpr ⟨a, List.mem_cons_self, rfl⟩
    · exact List.mem_map.mpr ⟨a, List.mem_cons_of_mem _ hcs, rfl⟩

/-- The pass gets through when no visit ends it, and ends at a member whose visits all do. -/
theorem visits_raise {l : List α} {R : α → Prop} (hR : ∀ a ∈ l, ∀ w, (f a w).2 = .raise ↔ R a) (w : ω) :
    (visits f l w).2.2 = true ↔ ∃ a ∈ l, R a := by
  induction l generalizing w with
  | nil => simp [visits]
  | cons a as ih =>
    have ha := hR a List.mem_cons_self w
    have ih' := ih fun b hb => hR b (List.mem_cons_of_mem a hb)
    rw [visits, List.exists_mem_cons_iff, ← ha]
    rcases f a w with ⟨w', b | _ | _⟩
    · simpa using ih' w'
    · simpa using ih' w'
    · simp

end Visits

/-! ## Predicates that may unlink nodes -/

section RemoveIf
variable {σ κ : Type} [DecidableEq κ] (nodes : σ → List κ) (unlink : κ → σ → σ)
  (pred : κ → σ → σ × Verdict)

/-- The node ahead of the pass is still there when the call of the predicate ends. -/
def Ahead (nodes : σ → List κ) (ks : List κ) (s t : σ) : Prop :=
  ∀ n ∈ ks.find? (· ∈ nodes s), n ∈ nodes t

instance (ks : List κ) (s t : σ) : Decidable (Ahead nodes ks s t) :=
  inferInstanceAs (Decidable (∀ n ∈ ks.find? (· ∈ nodes s), n ∈ nodes t))

/-- The pass over the nodes `ks` that were ahead of it when it began. A node unlinked in the meantime
    is not met any more. -/
def removeIf : List κ → σ → Outcome σ
  | [], s => .ok s
  | k :: ks, s =>
    if k ∈ nodes s then
      match pred k s with
      | (t, .keep) => if Ahead nodes ks s t then removeIf ks t else .undefined
      | (t, .drop) => if Ahead nodes ks s t then removeIf ks (unlink k t) else .undefined
      | (t, .raise) => .threw t
    else removeIf ks s

variable {nodes unlink pred}

/-- What every call of the predicate keeps, with the unlinking that follows it, holds after the pass. -/
theorem removeIf_induct {I : σ → Prop}
    (keep : ∀ k s t, I s → k ∈ nodes s → pred k s = (t, .keep) → I t)
    (drop : ∀ k s t, I s → k ∈ nodes s → pred k s = (t, .drop) → I (unlink k t))
    (raise : ∀ k s t, I s → k ∈ nodes s → pred k s = (t, .raise) → I t)
    {ks : List κ} {s t : σ} (h : I s) (ht : (removeIf nodes unlink pred ks s).state? = some t) : I t := by
  induction ks generalizing s with
  | nil =>
    cases ht
    exact h
  | cons k ks ih =>
    by_cases hk : k ∈ nodes s
    · rcases hp : pred k s with ⟨u, _ | _ | _⟩ <;> simp only [removeIf, hk, if_true, hp] at ht
      · split at ht
        · exact ih (keep k s u h hk hp) ht
        · cases ht
      · split at ht
        · exact ih (drop k s u h hk hp) ht
        · cases ht
      · cases ht
        exact raise k s t h hk hp
    · simp only [removeIf, hk, if_false] at ht
      exact ih h ht

/-- Nodes that are not there when the pass begins, and that no call brings back, make no difference. -/
theorem removeIf_filter {p : κ → Bool} (hpred : ∀ k s t v, pred k s = (t, v) → ∀ n ∈ nodes t, n ∈ nodes s)
    (hunlink : ∀ k s, ∀ n ∈ nodes (unlink k s), n ∈ nodes s) {ks : List κ} {s : σ}
    (hp : ∀ k ∈ ks, k ∈ nodes s → p k = true) :
    removeIf nodes unlink pred ks s = removeIf nodes unlink pred (ks.filter p) s := by
  induction ks generalizing s with
  | nil => rfl
  | cons k ks ih =>
    have hks : ∀ n ∈ ks, n ∈ nodes s → p n = true := fun n hn => hp n (List.mem_cons_of_mem k hn)
    by_cases hk : k ∈ nodes s
    · have ahead : ∀ t, Ahead nodes (ks.filter p) s t ↔ Ahead nodes ks s t := fun t => by
        have hfind : (ks.filter p).find? (· ∈ nodes s) = ks.find? (· ∈ nodes s) := by
          rw [List.find?_filter]
          refine List.find?_congr fun n hn => ?_
          by_cases hns : n ∈ nodes s
          · simp [hns, hks n hn hns]
          · simp [hns]
        unfold Ahead
        rw [hfind]
      rw [List.filter_cons_of_pos (hp k List.mem_cons_self hk), removeIf, if_pos hk, removeIf, if_pos hk]
      rcases hpk : pred k s with ⟨t, _ | _ | _⟩ <;> simp only [ahead]
      · rw [ih fun n hn hnt => hks n hn (hpred k s t _ hpk n hnt)]
      · rw [ih fun n hn hnt => hks n hn (hpred k s t _ hpk n (hunlink k t n hnt))]
    · rw [removeIf, if_neg hk, ih hks, List.filter_cons]
      split_ifs
      · rw [removeIf, if_neg hk]
      · rfl

/-! ### Visits that touch only their node -/

variable {α ω : Type} (key : α → κ) (put : List α → ω → σ) (f : α → ω → ω × Visit α)

/-- In a state that consists of a list and a rest, the call for a member does what `f` does to it; the call may
    unlink the member itself, or leave that to the pass. -/
def Local (unlink : κ → σ → σ) (pred : κ → σ → σ × Verdict) (done : List α) (a : α) (rest : List α) (w : ω) : Prop :=
  match f a w with
  | (w', .keep b) =>
    key b = key a ∧ pred (key a) (put (done ++ a :: rest) w) = (put (done ++ b :: rest) w', .keep)
  | (w', .drop) =>
    pred (key a) (put (done ++ a :: rest) w) = (put (done ++ rest) w', .keep) ∨
    (pred (key a) (put (done ++ a :: rest) w) = (put (done ++ a :: rest) w', .drop) ∧
      unlink (key a) (put (done ++ a :: rest) w') = put (done ++ rest) w')
  | (w', .raise) => pred (key a) (put (done ++ a :: rest) w) = (put (done ++ a :: rest) w', .raise)

/-- After a call that is local to its node the pass goes on with the rest of the list. -/
theorem removeIf_local (hnodes : ∀ l w, nodes (put l w) = l.map key) {done rest : List α} {a : α} {w : ω}
    (hl : Local key put f unlink pred done a rest w) :
    removeIf nodes unlink pred ((a :: rest).map key) (put (done ++ a :: rest) w) =
      match f a w with
      | (w', .keep b) => removeIf nodes unlink pred (rest.map key) (put (done ++ b :: rest) w')
      | (w', .drop) => removeIf nodes unlink pred (rest.map key) (put (done ++ rest) w')
      | (w', .raise) => .threw (put (done ++ a :: rest) w') := by
  have hmem : key a ∈ nodes (put (done ++ a :: rest) w) := by
    rw [hnodes]
    exact List.mem_map.mpr ⟨a, by simp, rfl⟩
  -- The nodes ahead of the pass stay in the list.
  have ahead : ∀ (l : List α) (s : σ) (u : ω), (∀ b ∈ rest, b ∈ l) → Ahead nodes (rest.map key) s (put l u) := by
    intro l s u hl n hn
    obtain ⟨b, hb, rfl⟩ := List.mem_map.mp (List.mem_of_find?_eq_some hn)
    rw [hnodes]
    exact List.mem_map.mpr ⟨b, hl b hb, rfl⟩
  rw [List.map_cons, removeIf, if_pos hmem]
  unfold Local at hl
  rcases hf : f a w with ⟨w', b | _ | _⟩ <;> rw [hf] at hl
  · obtain ⟨-, hp⟩ := hl
    rw [hp]
    exact if_pos (ahead _ _ _ fun c hc => by simp [hc])
  · rcases hl with hp | ⟨hp, hunlink⟩ <;> rw [hp] <;> simp only
    · exact if_pos (ahead _ _ _ fun c hc => by simp [hc])
    · rw [if_pos (ahead _ _ _ fun c hc => by simp [hc]), hunlink]
  · rw [hl]

/-- A pass whose calls are local to their nodes goes over the members one by one. -/
theorem removeIf_eq_visits {Q : List α → Prop} (hnodes : ∀ l w, nodes (put l w) = l.map key)
    (hkeep : ∀ done a rest w w' b, Q (done ++ a :: rest) → f a w = (w', .keep b) → Q (done ++ b :: rest))
    (hdrop : ∀ done a rest, Q (done ++ a :: rest) → Q (done ++ rest))
    (hlocal : ∀ done a rest w, Q (done ++ a :: rest) → Local key put f unlink pred done a rest w)
    (done rest : List α) (w : ω) (hq : Q (done ++ rest)) :
    removeIf nodes unlink pred (rest.map key) (put (done ++ rest) w) =
      if (visits f rest w).2.2 then .threw (put (done ++ (visits f rest w).1) (visits f rest w).2.1)
      else .ok (put (done ++ (visits f rest w).1) (visits f rest w).2.1) := by
  induction rest generalizing done w with
  | nil => rfl
  | cons a rest ih =>
    rw [removeIf_local key put f hnodes (hlocal done a rest w hq), visits]
    rcases hf : f a w with ⟨w', b | _ | _⟩
    · have ih' := ih (done ++ [b]) w' (by simpa using hkeep done a rest w w' b hq hf)
      simpa using ih'
    · exact ih done w' (hdrop done a rest hq)
    · rfl

end RemoveIf
end UdjatNetwork.Pass
