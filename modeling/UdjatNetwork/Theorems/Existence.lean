import UdjatNetwork.Theorems.Flags

/-! # Whether an interface exists

The agent keeps two bits for it. The flag states ask `intf.netlink`, which the messages write; the states
`found` and `not-found` ask `intf.exist`, which a refresh writes. A removal is acted on when it carries the
index of the agent, and a refresh takes the flags that it gets for an index. -/

namespace UdjatNetwork.Nic
open Machine Agent

variable {a b : Agent}

/-! ### Two states at a time -/

/-- Whenever a flag state matches, the state `found` matches too, and `not-found` does not. -/
def Agent.Consistent (a : Agent) : Prop :=
  ∀ fs ∈ flagstates, ∀ n st, State.factory n = some st → strcasecmp n fs.active ∨ strcasecmp n fs.inactive →
    st.compare a = true → ∀ m st', State.factory m = some st' →
      (strcasecmp m "found" → st'.compare a = true) ∧ (strcasecmp m "not-found" → st'.compare a = false)

/-- A message that brings new flags, other than zero, finds `intf.exist` set. -/
def Agent.Seen (a : Agent) : Input → Prop
  | .newLink ifi n => n = some a.name → ifi.flags ≠ 0 → a.flags ≠ ifi.flags → a.exist = true
  | _ => True

theorem consistent_iff : a.Consistent ↔ (a.netlink = true → a.flags ≠ 0 → a.exist = true) := by
  constructor
  · intro h hn h0
    -- Of the states for up and down one matches, and then `found` must.
    have hmem : ⟨0x1, "up", "down"⟩ ∈ flagstates := by decide
    have hfound : State.factory "found" = some (.existant false) := by decide
    have h0' : a.flags ≠ 0#32 := h0
    by_cases hup : a.flags &&& 1#32 = 0#32
    · have := (h _ hmem "down" (.inactive 0x1) (by decide) (by decide) (by simp [State.compare, hn, h0', hup]) _ _
        hfound).1 (by decide)
      simpa [State.compare] using this
    · have := (h _ hmem "up" (.active 0x1) (by decide) (by decide) (by simp [State.compare, hn, h0', hup]) _ _
        hfound).1 (by decide)
      simpa [State.compare] using this
  · intro h fs hfs n st hst hname hmatch m st' hst'
    have hexist : a.exist = true := by
      by_contra hno
      have hgone : a.netlink = false ∨ a.flags = 0 := by
        by_contra hboth
        obtain ⟨hn, h0⟩ := not_or.mp hboth
        exact hno (h (Bool.not_eq_false _ ▸ hn) h0)
      rw [noneMatches_of hgone fs hfs n st hst hname] at hmatch
      cases hmatch
    refine ⟨fun hm => ?_, fun hm => ?_⟩
    · rw [State.factory_congr hm, show State.factory "found" = some (.existant false) by decide] at hst'
      cases hst'
      simpa [State.compare] using hexist
    · rw [State.factory_congr hm, show State.factory "not-found" = some (.existant true) by decide] at hst'
      cases hst'
      simpa [State.compare] using hexist

theorem refresh_consistent (h : a.Consistent) (ioctl : Ioctl) : (a.refresh ioctl).1.Consistent := by
  rw [consistent_iff] at h ⊢
  cases ioctl with
  | noSocket => exact h
  | error errno => exact fun _ h0 => absurd rfl h0
  | flags f => exact fun _ _ => rfl

/-- A step keeps the states consistent exactly when it brings no flags for an interface that was not found. -/
theorem step_consistent {i : Input} (h : a.Consistent) (hb : a.step i = some b) : b.Consistent ↔ a.Seen i := by
  cases i with
  | start ioctl index =>
    cases hb
    refine iff_of_true ?_ trivial
    have hr := refresh_consistent h ioctl
    rw [consistent_iff] at hr ⊢
    cases ioctl <;> exact hr
  | refresh ioctl =>
    cases hb
    exact iff_of_true (refresh_consistent h ioctl) trivial
  | newLink ifi n =>
    cases hb
    simp only [Agent.newLink, Agent.Seen]
    split_ifs with hname hflags
    · exact iff_of_true h fun hn => absurd hn hname
    · rw [consistent_iff]
      exact ⟨fun hc _ h0 _ => hc rfl h0, fun hs _ h0 => hs (not_not.mp hname) h0 hflags⟩
    · refine iff_of_true ?_ fun _ _ hne => absurd hne hflags
      rw [consistent_iff] at h ⊢
      exact h
  | delLink ifi =>
    cases hb
    refine iff_of_true ?_ trivial
    simp only [Agent.delLink]
    split_ifs
    · exact h
    · exact consistent_iff.mpr fun hn => by cases hn
    · exact h

/-- In every run no flag state matches while `found` does not, if and only if every message with new flags,
    other than zero, comes while the last refresh has found the interface. --/
theorem found_iff (name : String) (is : List Input) :
    Always step Consistent { name } is ↔ Along step Seen { name } is := by
  constructor
  · refine along_of_always (J := fun _ => True) (fun _ _ _ _ _ _ _ => trivial) (fun a i _ hc hnext => ?_) trivial
    obtain ⟨b, hb⟩ := step_total a i
    exact (step_consistent hc hb).mp (hnext b hb)
  · refine always_of_along (fun a i b hc hs hb => (step_consistent hc hb).mpr hs) (consistent_iff.mpr fun hn => ?_)
    cases hn

/-- The interface is not there when the agent starts, and comes up: it is up, and not found. --/
theorem up_not_found :
    ¬ ∀ (name : String) (is : List Input), Always step Consistent { name } is := by
  intro h
  have hrun : exec step { name := "eth0" } [.start (.error 19) 0, .newLink ⟨2, 1⟩ (some "eth0")] =
      some { name := "eth0", index := 2, netlink := true, flags := 1 } := by decide
  have hc : Agent.Consistent _ := (h _ _).of_exec hrun
  exact absurd (consistent_iff.mp hc rfl (by decide)) (by decide)

/-! ### The index -/

/-- An input about the interface with the name and the index, while it exists. -/
def Agent.Input.About (name : String) (k : Int) : Input → Prop
  | .start _ index => index = k
  | .refresh ioctl => ∃ f, ioctl = .flags f
  | .newLink ifi n => ifi.index = k ∧ n = some name
  | .delLink ifi => ifi.index = k

/-- The agent has the index after a refresh and after `RTM_NEWLINK`, and `RTM_DELLINK` is not ignored. -/
def Agent.KeepsIndex (k : Int) (a : Agent) (i : Input) : Prop :=
  ∀ b, a.step i = some b → match i with
    | .start (.flags _) _ | .refresh (.flags _) | .newLink _ _ => b.index = k
    | .delLink _ => b.netlink = false
    | _ => True

/-- A refresh finds flags whose sixteen bits are the index. -/
def Agent.Input.ReadsIndex (k : Int) : Input → Prop
  | .refresh (.flags f) => (f.toNat : Int) = k
  | _ => True

/-- Without the index, no message has been taken yet. -/
theorem keepsIndex {name : String} {k : Int} {i : Input} (hname : a.name = name)
    (h : a.index = k ∨ a.netlink = false) (hi : i.About name k) (hr : i.ReadsIndex k) :
    a.KeepsIndex k i ∧ ∀ b, a.step i = some b → b.index = k ∨ b.netlink = false := by
  cases i with
  | start ioctl index =>
    obtain rfl : index = k := hi
    cases ioctl with
    | noSocket =>
      refine ⟨fun b _ => trivial, fun b hb => ?_⟩
      cases hb
      exact h
    | error errno =>
      refine ⟨fun b _ => trivial, fun b hb => ?_⟩
      cases hb
      exact Or.inl rfl
    | flags f =>
      refine ⟨fun b hb => ?_, fun b hb => ?_⟩ <;> cases hb
      · rfl
      · exact Or.inl rfl
  | refresh ioctl =>
    obtain ⟨f, rfl⟩ := hi
    refine ⟨fun b hb => ?_, fun b hb => ?_⟩ <;> cases hb
    · exact hr
    · exact Or.inl hr
  | newLink ifi n =>
    obtain ⟨hk, hn⟩ := hi
    have hindex : (a.newLink ifi n).1.index = k := by
      simp only [Agent.newLink, hname, hn]
      split_ifs <;> first | exact hk | rename_i hne; exact absurd rfl hne
    refine ⟨fun b hb => ?_, fun b hb => ?_⟩ <;> cases hb
    · exact hindex
    · exact Or.inl hindex
  | delLink ifi =>
    have hgone : (a.delLink ifi).1.netlink = false := by
      simp only [Agent.delLink]
      split_ifs with hindex hacted
      · exact h.resolve_left fun hk => hindex (hk.trans (Eq.symm hi))
      · rfl
      · simpa using (not_or.mp hacted).2
    refine ⟨fun b hb => ?_, fun b hb => ?_⟩ <;> cases hb
    · exact hgone
    · exact Or.inr hgone

/-- In every run about an interface that exists, the agent keeps its index, and takes its removal, if and only
    if every refresh finds flags that read as the index. --/
theorem index_kept_iff (name : String) (k : Int) (is : List Input) (hk : ∀ i ∈ is, i.About name k) :
    Along step (KeepsIndex k) { name } is ↔ ∀ i ∈ is, i.ReadsIndex k := by
  constructor
  · intro h
    refine (along_iff_forall step_total).mp (h.mono fun a i hkeep => ?_)
    cases i with
    | refresh ioctl =>
      cases ioctl with
      | flags f => exact hkeep _ rfl
      | _ => trivial
    | _ => trivial
  · intro hr
    have habout : Along step (fun _ i => i.About name k) { name } is := along_of_forall hk
    have hC := habout.and (along_of_forall hr)
    have inv : Always step (fun a => a.name = name ∧ (a.index = k ∨ a.netlink = false)) { name } is := by
      refine always_of_along (fun a i b hI hc hb => ?_) ⟨rfl, Or.inr rfl⟩ hC
      exact ⟨(step_name hb).trans hI.1, (keepsIndex hI.1 hI.2 hc.1 hc.2).2 b hb⟩
    exact (inv.along.and hC).mono fun a i hc => (keepsIndex hc.1.1 hc.1.2 hc.2.1 hc.2.2).1

/-- The interface with index 2 has the flags 0x1043, a refresh takes them for the index, and the removal of the
    interface is ignored. --/
theorem removal_ignored :
    ¬ ∀ (name : String) (k : Int) (is : List Input), (∀ i ∈ is, i.About name k) →
      Along step (KeepsIndex k) { name } is := by
  intro h
  let is : List Input := [.start (.flags 0x1043) 2, .newLink ⟨2, 0x11043⟩ (some "eth0"), .refresh (.flags 0x1043),
    .delLink ⟨2, 0x1002⟩]
  have habout : ∀ i ∈ is, i.About "eth0" 2 := by simp [is, Input.About]
  have hkeep := (h "eth0" 2 is habout).2 _ rfl |>.2 _ rfl |>.2 _ rfl
  exact absurd (hkeep.1 _ rfl) (by decide)

/-- The flags of a loopback interface with the index 0x49. --/
theorem index_kept_loopback :
    Along step (KeepsIndex 0x49) { name := "lo" } [.start (.flags 0x49) 0x49, .refresh (.flags 0x49), .delLink ⟨0x49, 0⟩] :=
  (index_kept_iff "lo" 0x49 _ (by simp [Input.About])).mpr (by simp [Input.ReadsIndex])

end UdjatNetwork.Nic
