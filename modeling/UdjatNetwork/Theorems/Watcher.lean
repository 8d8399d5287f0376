import UdjatNetwork.NetLink.Controller

/-! # The watcher of the netlink controller

The socket should be open while there are listeners, bound and with its handler enabled. `push_back` adds
its listener first and takes nothing back when the socket fails, and an open descriptor makes all later
calls believe that the watcher runs. -/

namespace UdjatNetwork.NetLink
open Machine Controller

variable {s t : Controller}

/-- The socket is bound and its handler is enabled. -/
def Controller.Watching (s : Controller) : Prop := s.fd ≠ -1 ∧ s.bound = true ∧ s.enabled = true

/-- There are listeners when, and only when, the socket is open, and then it is served. -/
def Controller.Served (s : Controller) : Prop :=
  (s.listeners ≠ [] ↔ s.fd ≠ -1) ∧ (s.fd ≠ -1 → s.bound = true ∧ s.enabled = true)

/-- A `push_back` that throws changes nothing, and one that returns has its listener served. -/
def Controller.PushKeeps (s : Controller) : Input → Prop
  | .pushBack l env =>
    (∀ t, s.pushBack l env = .threw t →
      t.listeners = s.listeners ∧ t.fd = s.fd ∧ t.enabled = s.enabled) ∧
    ∀ t, s.pushBack l env = .ok t → l ∈ t.listeners ∧ t.Watching
  | .remove _ => True

/-- A `push_back` that has no socket gets one that can be bound. -/
def Controller.Opens (s : Controller) : Input → Prop
  | .pushBack _ env => s.fd = -1 → env.socket ≠ none ∧ env.bind = true
  | .remove _ => True

/-- A call returns when it finds the socket open, or opens and binds it; otherwise it throws, and leaves
    its listener behind. -/
theorem pushBack_cases (s : Controller) (l : Listener) (env : PushEnv) :
    (∃ t, s.pushBack l env = .ok t ∧ s.Opens (.pushBack l env) ∧ t.listeners = s.listeners ++ [l] ∧
      ((s.fd ≠ -1 ∧ t.fd = s.fd ∧ t.bound = s.bound ∧ t.enabled = s.enabled) ∨ t.Watching)) ∨
    (∃ t, s.pushBack l env = .threw t ∧ ¬ s.Opens (.pushBack l env) ∧ t.listeners = s.listeners ++ [l]) := by
  by_cases hfd : s.fd = -1
  · cases hs : env.socket with
    | none =>
      refine Or.inr ⟨_, by simp [pushBack, hfd, hs]; rfl, ?_, rfl⟩
      exact fun ho => (ho hfd).1 hs
    | some fd =>
      cases hb : env.bind with
      | false =>
        refine Or.inr ⟨_, by simp [pushBack, hfd, hs, hb]; rfl, fun ho => ?_, rfl⟩
        rw [(ho hfd).2] at hb
        cases hb
      | true =>
        refine Or.inl ⟨_, by simp [pushBack, hfd, hs, hb]; rfl, fun _ => ⟨by simp [hs], hb⟩, rfl, Or.inr ?_⟩
        refine ⟨?_, rfl, rfl⟩
        change (fd : Int) ≠ -1
        omega
  · refine Or.inl ⟨_, by simp [pushBack, hfd]; rfl, fun h => absurd h hfd, rfl, Or.inl ?_⟩
    exact ⟨hfd, rfl, rfl, rfl⟩

theorem step_served {i : Input} (h : s.Served) (ho : s.Opens i) (ht : s.step i = some t) : t.Served := by
  cases i with
  | pushBack l env =>
    change (s.pushBack l env).state? = some t at ht
    rcases pushBack_cases s l env with ⟨u, hu, -, hl, hw⟩ | ⟨u, -, hno, -⟩
    · rw [hu] at ht
      cases ht
      have hne : t.listeners ≠ [] := by simp [hl]
      rcases hw with ⟨hfd, h1, h2, h3⟩ | ⟨hfd, hb, he⟩
      · refine ⟨iff_of_true hne (h1 ▸ hfd), fun _ => ?_⟩
        rw [h2, h3]
        exact h.2 hfd
      · exact ⟨iff_of_true hne hfd, fun _ => ⟨hb, he⟩⟩
    · exact absurd ho hno
  | remove object =>
    cases ht
    unfold Controller.remove
    dsimp only
    split_ifs with hl
    · have hfd : s.fd ≠ -1 := h.1.mp fun hnil => hl (by simp [hnil])
      exact ⟨iff_of_true hl hfd, fun _ => h.2 hfd⟩
    · exact ⟨iff_of_false hl (by simp), fun hfd => absurd rfl hfd⟩

theorem pushKeeps_iff {i : Input} (h : s.Served) : s.PushKeeps i ↔ s.Opens i := by
  cases i with
  | pushBack l env =>
    rcases pushBack_cases s l env with ⟨u, hu, ho, hl, -⟩ | ⟨u, hu, hno, hl⟩
    · refine iff_of_true ⟨fun t ht => ?_, fun t ht => ?_⟩ ho <;> rw [hu] at ht <;> cases ht
      have hserved : u.Served := step_served h ho (by simp [Controller.step, hu])
      have hmem : l ∈ u.listeners := by simp [hl]
      have hfd : u.fd ≠ -1 := hserved.1.mp (List.ne_nil_of_mem hmem)
      exact ⟨hmem, hfd, hserved.2 hfd⟩
    · refine iff_of_false (fun hk => ?_) hno
      have hlist := (hk.1 u hu).1
      rw [hl] at hlist
      simp at hlist
  | remove object => exact iff_of_true trivial trivial

/-- In every run the watcher is in order, and no call to `push_back` fails halfway, if and only if every
    call that finds no socket gets one and can bind it. --/
theorem served_iff (is : List Input) :
    (Always step Served {} is ∧ Along step PushKeeps {} is) ↔ Along step Opens {} is := by
  constructor
  · rintro ⟨hs, hk⟩
    exact (hs.along.and hk).mono fun _ _ h => (pushKeeps_iff h.1).mp h.2
  · intro ho
    have hs : Always step Served {} is :=
      always_of_along (fun _ _ _ => step_served) ⟨by simp, fun h => absurd rfl h⟩ ho
    exact ⟨hs, (hs.along.and ho).mono fun _ _ h => (pushKeeps_iff h.1).mpr h.2⟩

/-- The first socket cannot be bound, and the second `push_back` returns without a watcher. --/
theorem not_served_bind_fails :
    ¬ ∀ is : List Input, Always step Served {} is ∧ Along step PushKeeps {} is := by
  intro h
  have hrun : exec step {} [.pushBack ⟨16, 1, 0⟩ ⟨some 7, false⟩, .pushBack ⟨17, 1, 1⟩ ⟨some 7, true⟩] =
      some { listeners := [⟨16, 1, 0⟩, ⟨17, 1, 1⟩], fd := 7 } := by decide
  have hserved := (h _).1.of_exec hrun
  exact absurd (hserved.2 (by decide)).1 (by decide)

end UdjatNetwork.NetLink
