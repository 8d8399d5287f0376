import UdjatNetwork.Theorems.Flags

/-! # Reports that bring nothing new

An interface stays as it is, and is reported over and over: by the ioctl of a refresh, with the lower half of its flags,
and by `RTM_NEWLINK`, with all of them. The agent compares each report with what the last one left. -/

namespace UdjatNetwork.Nic
open Machine Agent

variable {a b : Agent} {name : String} {F : BitVec 32} {k : Int}

/-- The refresh that finds the interface. -/
def found (F : BitVec 32) : Input := .refresh (.flags (F.setWidth 16))

/-- The message about the interface. -/
def link (name : String) (F : BitVec 32) (k : Int) : Input := .newLink ⟨k, F⟩ (some name)

/-- The start of the agent, with its refresh, while the interface is there. -/
def started (F : BitVec 32) (k : Int) : Input := .start (.flags (F.setWidth 16)) k

/-- The flags that a refresh reads, with the sign of `ifr_flags`. -/
def ioctlFlags (F : BitVec 32) : BitVec 32 := (F.setWidth 16).signExtend 32

/-- What a refresh reads for the index. -/
def ioctlIndex (F : BitVec 32) : Int := (F.setWidth 16).toNat

/-- The refresh returns true, or the message schedules an update. -/
def Agent.Changes (a : Agent) : Input → Prop
  | .refresh ioctl => (a.refresh ioctl).2 = some true
  | .newLink ifi n => (a.newLink ifi n).2 = true
  | _ => False

/-- After the first report, none counts as a change. -/
def Agent.Settles (a : Agent) (first : Input) (is : List Input) : Prop :=
  ∀ b, a.step first = some b → Along step (fun a i => ¬ a.Changes i) b is

/-- What both ways of reporting agree on, as far as the reports show it. -/
structure Agent.Agrees (a : Agent) (F : BitVec 32) (k : Int) (first : Input) (is : List Input) : Prop where
  flags : link a.name F k ∈ first :: is → (∃ i ∈ first :: is, i ≠ link a.name F k) → ioctlFlags F = F
  index : ∀ i, i ≠ found F → [i, found F].Sublist (first :: is) → ioctlIndex F = k
  exist : first = link a.name F k → found F ∈ is → a.exist = true

/-! ### One report -/

theorem found_ne_link : found F ≠ link name F k := by
  intro h
  cases h

theorem changes_found : ¬ a.Changes (found F) ↔ a.flags = ioctlFlags F ∧ a.index = ioctlIndex F ∧ a.exist = true := by
  change ¬ some (decide (a.flags ≠ ioctlFlags F) || decide (a.index ≠ ioctlIndex F) || !a.exist) = some true ↔ _
  simp [and_assoc]

theorem step_found (a : Agent) (F : BitVec 32) :
    a.step (found F) = some { a with flags := ioctlFlags F, index := ioctlIndex F, exist := true } := rfl

theorem changes_link (hname : a.name = name) : ¬ a.Changes (link name F k) ↔ a.flags = F := by
  simp only [Agent.Changes, link, Agent.newLink, hname]
  by_cases hflags : a.flags = F <;> simp [hflags]

theorem step_link (hname : a.name = name) (F : BitVec 32) (k : Int) :
    ∃ b, a.step (link name F k) = some b ∧ b.name = name ∧ b.flags = F ∧ b.index = k ∧ b.exist = a.exist := by
  refine ⟨_, rfl, ?_⟩
  simp only [Agent.newLink, hname]
  by_cases hflags : a.flags = F <;> simp [hflags]

/-! ### All reports -/

/-- A refresh among the reports is the first of them, or comes after a message. -/
theorem mem_found_iff {is : List Input} (his : ∀ i ∈ is, i = found F ∨ i = link name F k) :
    found F ∈ is ↔ is.head? = some (found F) ∨ [link name F k, found F].Sublist is := by
  constructor
  · intro hmem
    rcases is with _ | ⟨i, is⟩
    · cases hmem
    rcases his i List.mem_cons_self with rfl | rfl
    · exact Or.inl rfl
    · refine Or.inr (.cons_cons _ (List.singleton_sublist.mpr ?_))
      exact (List.mem_cons.mp hmem).resolve_left found_ne_link
  · rintro (hhead | hsub)
    · exact List.mem_of_mem_head? hhead
    · exact hsub.subset (by simp)

/-- Flags and `exist` never change without a change being reported; the index may. -/
theorem quiet_iff {is : List Input} (hname : b.name = name) (his : ∀ i ∈ is, i = found F ∨ i = link name F k) :
    Along step (fun a i => ¬ a.Changes i) b is ↔
      (link name F k ∈ is → b.flags = F) ∧ (found F ∈ is → b.flags = ioctlFlags F ∧ b.exist = true) ∧
        ([link name F k, found F].Sublist is → ioctlIndex F = k) ∧
          (is.head? = some (found F) → b.index = ioctlIndex F) := by
  induction is generalizing b with
  | nil => simp [Along]
  | cons i is ih =>
    obtain ⟨hi, hrest⟩ := List.forall_mem_cons.mp his
    rcases hi with rfl | rfl
    · have hnext := ih (b := { b with flags := ioctlFlags F, index := ioctlIndex F, exist := true }) hname hrest
      have hsub : [link name F k, found F].Sublist (found F :: is) ↔ [link name F k, found F].Sublist is :=
        ⟨fun h => (List.cons_sublist_cons'.mp h).resolve_right fun h => found_ne_link h.1.symm, .cons _⟩
      simp only [Along, changes_found, step_found, Option.some.injEq, forall_eq', hnext, hsub, List.mem_cons,
        found_ne_link.symm, false_or, true_or, forall_true_left, List.head?_cons]
      constructor
      · rintro ⟨⟨hflags, hindex, hexist⟩, hlink, -, hlater, -⟩
        exact ⟨fun h => hflags.trans (hlink h), ⟨hflags, hexist⟩, hlater, hindex⟩
      · rintro ⟨hlink, ⟨hflags, hexist⟩, hlater, hindex⟩
        exact ⟨⟨hflags, hindex, hexist⟩, fun h => hflags.symm.trans (hlink h), fun _ => ⟨trivial, trivial⟩, hlater, fun _ => trivial⟩
    · obtain ⟨c, hc, hcname, hflags, hindex, hexist⟩ := step_link hname F k
      have hsub : [link name F k, found F].Sublist (link name F k :: is) ↔ found F ∈ is := by
        rw [List.cons_sublist_cons, List.singleton_sublist]
      have hhead : ¬ some (link name F k) = some (found F) := fun h => found_ne_link (Option.some.inj h).symm
      simp only [Along, changes_link hname, hc, Option.some.injEq, forall_eq', ih hcname hrest, hsub, List.mem_cons,
        found_ne_link, false_or, true_or, forall_true_left, List.head?_cons, hflags, hindex, hexist]
      constructor
      · rintro ⟨hF, -, hfound, hlater, hfirst⟩
        refine ⟨hF, fun h => ⟨hF.trans (hfound h).1, (hfound h).2⟩, fun h => ?_, fun h => absurd h.symm found_ne_link⟩
        rcases (mem_found_iff hrest).mp h with h | h
        · exact (hfirst h).symm
        · exact hlater h
      · rintro ⟨hF, hfound, hlater, -⟩
        have hmem := mem_found_iff hrest
        exact ⟨hF, fun _ => trivial, fun h => ⟨hF.symm.trans (hfound h).1, (hfound h).2⟩,
          fun h => hlater (hmem.mpr (Or.inr h)), fun h => (hlater (hmem.mpr (Or.inl h))).symm⟩

theorem agrees_iff {first : Input} {is : List Input} (his : ∀ i ∈ is, i = found F ∨ i = link a.name F k) :
    a.Agrees F k first is ↔
      (link a.name F k ∈ first :: is → first ≠ link a.name F k ∨ found F ∈ is → ioctlFlags F = F) ∧
        (first ≠ found F → found F ∈ is → ioctlIndex F = k) ∧
          ([link a.name F k, found F].Sublist is → ioctlIndex F = k) ∧
            (first = link a.name F k → found F ∈ is → a.exist = true) := by
  have hother : (∃ i ∈ first :: is, i ≠ link a.name F k) ↔ first ≠ link a.name F k ∨ found F ∈ is := by
    constructor
    · rintro ⟨i, hi, hne⟩
      rcases List.mem_cons.mp hi with rfl | hi
      · exact Or.inl hne
      · exact Or.inr ((his i hi).resolve_right hne ▸ hi)
    · rintro (hne | hmem)
      · exact ⟨first, List.mem_cons_self, hne⟩
      · exact ⟨found F, List.mem_cons_of_mem _ hmem, found_ne_link⟩
  constructor
  · rintro ⟨hflags, hindex, hexist⟩
    refine ⟨fun hl ho => hflags hl (hother.mpr ho), fun hne hmem => ?_, fun hsub => ?_, hexist⟩
    · exact hindex first hne (.cons_cons _ (List.singleton_sublist.mpr hmem))
    · exact hindex _ found_ne_link.symm (.cons _ hsub)
  · rintro ⟨hflags, hfirst, hlater, hexist⟩
    refine ⟨fun hl ho => hflags hl (hother.mp ho), fun i hne hsub => ?_, hexist⟩
    rcases List.cons_sublist_cons'.mp hsub with hsub | ⟨rfl, hmem⟩
    · obtain rfl := (his i (hsub.subset List.mem_cons_self)).resolve_left hne
      exact hlater hsub
    · exact hfirst hne (List.singleton_sublist.mp hmem)

theorem settles_iff_quiet {first : Input} {is : List Input} (hb : a.step first = some b) :
    a.Settles first is ↔ Along step (fun a i => ¬ a.Changes i) b is := by
  simp [Agent.Settles, hb]

/-- Reports of an interface that stays as it is settle exactly when both ways of reporting agree on what they show. --/
theorem settles_iff {first : Input} {is : List Input}
    (hfirst : first = found F ∨ first = link a.name F k ∨ first = started F k)
    (his : ∀ i ∈ is, i = found F ∨ i = link a.name F k) :
    a.Settles first is ↔ a.Agrees F k first is := by
  have hmem := mem_found_iff his
  rw [agrees_iff his]
  rcases hfirst with rfl | rfl | rfl
  · have hquiet := quiet_iff (b := { a with flags := ioctlFlags F, index := ioctlIndex F, exist := true }) rfl his
    rw [settles_iff_quiet (step_found a F), hquiet]
    constructor
    · rintro ⟨hF, -, hlater, -⟩
      exact ⟨fun hl _ => hF ((List.mem_cons.mp hl).resolve_left found_ne_link.symm), fun h => absurd rfl h, hlater,
        fun h => absurd h found_ne_link⟩
    · rintro ⟨hF, -, hlater, -⟩
      exact ⟨fun h => hF (List.mem_cons_of_mem _ h) (Or.inl found_ne_link), fun _ => ⟨rfl, rfl⟩, hlater, fun _ => rfl⟩
  · obtain ⟨b, hb, hname, hflags, hindex, hexist⟩ := step_link (a := a) rfl F k
    rw [settles_iff_quiet hb, quiet_iff hname his, hflags, hindex, hexist]
    constructor
    · rintro ⟨-, hfound, hlater, hfirst⟩
      have hk : found F ∈ is → ioctlIndex F = k := fun h => (hmem.mp h).elim (fun h => (hfirst h).symm) hlater
      exact ⟨fun _ h => (hfound (h.resolve_left fun h => h rfl)).1.symm, fun _ => hk, hlater, fun _ h => (hfound h).2⟩
    · rintro ⟨hF, hk, hlater, hseen⟩
      have hk : found F ∈ is → ioctlIndex F = k := hk found_ne_link.symm
      exact ⟨fun _ => rfl, fun h => ⟨(hF List.mem_cons_self (Or.inr h)).symm, hseen rfl h⟩, hlater,
        fun h => (hk (hmem.mpr (Or.inl h))).symm⟩
  · have hstep : a.step (started F k) = some { a with flags := ioctlFlags F, index := k, exist := true } := rfl
    have hne : started F k ≠ link a.name F k := fun h => by cases h
    have hne' : started F k ≠ found F := fun h => by cases h
    have hquiet := quiet_iff (b := { a with flags := ioctlFlags F, index := k, exist := true }) rfl his
    rw [settles_iff_quiet hstep, hquiet]
    constructor
    · rintro ⟨hF, -, hlater, hfirst⟩
      refine ⟨fun hl _ => hF ((List.mem_cons.mp hl).resolve_left hne.symm), fun _ h => ?_, hlater, fun h => absurd h hne⟩
      exact (hmem.mp h).elim (fun h => (hfirst h).symm) hlater
    · rintro ⟨hF, hk, hlater, -⟩
      exact ⟨fun h => hF (List.mem_cons_of_mem _ h) (Or.inl hne), fun _ => ⟨rfl, rfl⟩, hlater,
        fun h => (hk hne' (hmem.mpr (Or.inl h))).symm⟩

/-- A loopback interface with the index of its flags: one message after the start, and a refresh. --/
theorem settles_loopback :
    Agent.Settles { name := "lo" } (started 0x49 0x49) [link "lo" 0x49 0x49, found 0x49] ↔
      Agent.Agrees { name := "lo" } 0x49 0x49 (started 0x49 0x49) [link "lo" 0x49 0x49, found 0x49] :=
  settles_iff (Or.inr (Or.inr rfl)) (by simp)

/-- The flag `IFF_LOWER_UP` is beyond the sixteen bits: the first message after a refresh schedules an update. --/
theorem lower_up_changes :
    ¬ ∀ (a : Agent) (F : BitVec 32) (k : Int) (first : Input) (is : List Input),
      first = found F ∨ first = link a.name F k → (∀ i ∈ is, i = found F ∨ i = link a.name F k) →
        a.Settles first is := by
  intro h
  have hs := h { name := "eth0" } 0x11043 2 (found 0x11043) [link "eth0" 0x11043 2] (Or.inl rfl) (by simp) _ rfl
  exact absurd ((changes_link rfl).mp hs.1) (by decide)

end UdjatNetwork.Nic
