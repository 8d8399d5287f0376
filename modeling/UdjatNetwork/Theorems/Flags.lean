import UdjatNetwork.Nic.Agent
import UdjatNetwork.Support.Machine

/-! # The flag states of a network interface

A report gives the agent the flags of its interface: a refresh that succeeds, or `RTM_NEWLINK`. The states
then match its flags only if `intf.netlink` is set, and a report sets it only in `RTM_NEWLINK`, when the
flags are new. -/

namespace UdjatNetwork.Nic
open Machine Agent

variable {a b : Agent}

/-- The states built for the names of the flags match the flags `f`. -/
def Agent.FlagsMatch (a : Agent) (f : BitVec 32) : Prop :=
  ∀ fs ∈ flagstates, ∀ n st, State.factory n = some st →
    (strcasecmp n fs.active → (st.compare a = true ↔ f &&& fs.flag ≠ 0)) ∧
    (strcasecmp n fs.inactive → (st.compare a = true ↔ f &&& fs.flag = 0))

/-- None of these states matches. -/
def Agent.NoneMatches (a : Agent) : Prop :=
  ∀ fs ∈ flagstates, ∀ n st, State.factory n = some st →
    strcasecmp n fs.active ∨ strcasecmp n fs.inactive → st.compare a = false

/-- The flags that an input reports about the interface. -/
def Agent.Input.reports (name : String) : Input → Option (BitVec 32)
  | .start (.flags f) _ => some (f.setWidth 32)
  | .refresh (.flags f) => some (f.setWidth 32)
  | .newLink ifi n => if n = some name then some ifi.flags else none
  | _ => none

/-- The removal is acted on: it is about the interface with the index of the agent, and no repetition. -/
def Agent.Removes (a : Agent) : Input → Prop
  | .delLink ifi => a.index = ifi.index ∧ (a.flags ≠ ifi.flags ∨ a.netlink = true)
  | _ => False

/-- After a report of flags other than zero, the states match them. -/
def Agent.ReportMatches (a : Agent) (i : Input) : Prop :=
  ∀ f, i.reports a.name = some f → f ≠ 0 → ∀ b, a.step i = some b → b.FlagsMatch f

/-- After a removal that is acted on, no state matches until the next report of flags other than zero. -/
def Agent.RemovalMatches (a : Agent) (i : Input) : Prop :=
  a.Removes i → ∀ is b, (∀ j ∈ is, ∀ f, j.reports a.name = some f → f = 0) →
    exec step a (i :: is) = some b → b.NoneMatches

/-- A report of flags other than zero finds `intf.netlink` set, or is a message that sets it. -/
def Agent.Recorded (a : Agent) (i : Input) : Prop :=
  ∀ f, i.reports a.name = some f → f ≠ 0 →
    a.netlink = true ∨ ∃ ifi n, i = .newLink ifi n ∧ a.flags ≠ ifi.flags

/-! ### States -/

/-- The sign of `ifr_flags` is no flag of the table. -/
theorem signExtend_and_flag (f : BitVec 16) :
    ∀ fs ∈ flagstates, f.signExtend 32 &&& fs.flag = f.setWidth 32 &&& fs.flag := by
  have low : ∀ g : BitVec 32, (∀ i < 32, 16 ≤ i → g.getLsbD i = false) →
      f.signExtend 32 &&& g = f.setWidth 32 &&& g := fun g hg => by
    refine BitVec.eq_of_getLsbD_eq fun i hi => ?_
    rw [BitVec.getLsbD_and, BitVec.getLsbD_and, BitVec.getLsbD_signExtend, BitVec.getLsbD_setWidth]
    by_cases h16 : i < 16
    · simp [hi, h16]
    · simp [hg i hi (by omega)]
  intro fs hfs
  refine low _ ?_
  revert fs
  decide

theorem signExtend_eq_zero {f : BitVec 16} (h : f.signExtend 32 = 0) : f = 0 := by
  refine BitVec.eq_of_getLsbD_eq fun i hi => ?_
  have hbit : (f.signExtend 32).getLsbD i = (0 : BitVec 32).getLsbD i := by rw [h]
  have h32 : i < 32 := by omega
  rw [BitVec.getLsbD_signExtend, if_pos hi] at hbit
  simpa [h32] using hbit

theorem flagsMatch_of_netlink {f : BitVec 32} (hn : a.netlink = true) (h0 : a.flags ≠ 0)
    (hf : ∀ fs ∈ flagstates, a.flags &&& fs.flag = f &&& fs.flag) : a.FlagsMatch f := by
  have h0' : a.flags ≠ 0#32 := h0
  intro fs hfs n st hst
  refine ⟨fun hact => ?_, fun hinact => ?_⟩
  · rw [State.factory_congr hact, State.factory_active fs hfs] at hst
    cases hst
    simp [State.compare, hn, h0', hf fs hfs]
  · rw [State.factory_congr hinact, State.factory_inactive fs hfs] at hst
    cases hst
    simp [State.compare, hn, h0', hf fs hfs]

theorem noneMatches_of (h : a.netlink = false ∨ a.flags = 0) : a.NoneMatches := by
  intro fs hfs n st hst hn
  have hst' : st = .active fs.flag ∨ st = .inactive fs.flag := by
    rcases hn with hn | hn
    · rw [State.factory_congr hn, State.factory_active fs hfs] at hst
      exact Or.inl (Option.some.inj hst).symm
    · rw [State.factory_congr hn, State.factory_inactive fs hfs] at hst
      exact Or.inr (Option.some.inj hst).symm
  rcases hst' with rfl | rfl <;> rcases h with h | h <;> simp [State.compare, h]

/-- Without `intf.netlink` no flags match: of the states for up and down, one should match. -/
theorem netlink_of_flagsMatch {f : BitVec 32} (h : a.FlagsMatch f) : a.netlink = true := by
  by_contra hn
  have hnone : a.NoneMatches := noneMatches_of (Or.inl (Bool.not_eq_true _ ▸ hn))
  have hmem : ⟨0x1, "up", "down"⟩ ∈ flagstates := by decide
  have hup := (h _ hmem "up" (.active 0x1) (by decide)).1 (by decide)
  have hdown := (h _ hmem "down" (.inactive 0x1) (by decide)).2 (by decide)
  rw [hnone _ hmem "up" (.active 0x1) (by decide) (by decide)] at hup
  rw [hnone _ hmem "down" (.inactive 0x1) (by decide) (by decide)] at hdown
  simp_all

/-! ### Steps -/

theorem step_total (a : Agent) (i : Input) : ∃ b, a.step i = some b := by
  cases i <;> exact ⟨_, rfl⟩

theorem step_name {i : Input} (hb : a.step i = some b) : b.name = a.name := by
  cases i with
  | start ioctl index => cases ioctl <;> cases hb <;> rfl
  | refresh ioctl => cases ioctl <;> cases hb <;> rfl
  | newLink ifi n =>
    cases hb
    simp only [Agent.newLink]
    split_ifs <;> rfl
  | delLink ifi =>
    cases hb
    simp only [Agent.delLink]
    split_ifs <;> rfl

/-- After a report, the agent has the flags of it; `intf.netlink` is set if it was, or by the message. -/
theorem step_reports {i : Input} {f : BitVec 32} (hr : i.reports a.name = some f) (hb : a.step i = some b) :
    (b.flags = f ∨ ∃ g : BitVec 16, b.flags = g.signExtend 32 ∧ f = g.setWidth 32) ∧
      (b.netlink = true ↔ a.netlink = true ∨ ∃ ifi n, i = .newLink ifi n ∧ a.flags ≠ ifi.flags) := by
  cases i with
  | start ioctl index =>
    cases ioctl <;> cases hr
    cases hb
    exact ⟨Or.inr ⟨_, rfl, rfl⟩, by simp [Agent.start, Agent.refresh]⟩
  | refresh ioctl =>
    cases ioctl <;> cases hr
    cases hb
    exact ⟨Or.inr ⟨_, rfl, rfl⟩, by simp [Agent.refresh]⟩
  | newLink ifi n =>
    simp only [Agent.Input.reports] at hr
    split_ifs at hr with hname
    cases hr
    cases hb
    by_cases hflags : a.flags = ifi.flags
    · exact ⟨Or.inl (by simp [Agent.newLink, hname, hflags]), by simp [Agent.newLink, hname, hflags]⟩
    · exact ⟨Or.inl (by simp [Agent.newLink, hname, hflags]), by simp [Agent.newLink, hname, hflags]⟩
  | delLink ifi => cases hr

/-- A report of flags other than zero is matched exactly when `intf.netlink` ends up set. -/
theorem reportMatches_iff {i : Input} : a.ReportMatches i ↔ a.Recorded i := by
  obtain ⟨b, hb⟩ := step_total a i
  constructor
  · intro hm f hr h0
    exact (step_reports hr hb).2.mp (netlink_of_flagsMatch (hm f hr h0 b hb))
  · intro hrec f hr h0 b' hb'
    rw [hb] at hb'
    cases hb'
    obtain ⟨hflags, hnet⟩ := step_reports hr hb
    have hn : b.netlink = true := hnet.mpr (hrec f hr h0)
    rcases hflags with hf | ⟨g, hf, rfl⟩
    · exact flagsMatch_of_netlink hn (hf ▸ h0) fun fs _ => by rw [hf]
    · refine flagsMatch_of_netlink hn ?_ fun fs hfs => by rw [hf, signExtend_and_flag g fs hfs]
      intro hzero
      rw [hf] at hzero
      rw [signExtend_eq_zero hzero] at h0
      exact h0 rfl

theorem refresh_gone (h : a.netlink = false ∨ a.flags = 0) (ioctl : Ioctl)
    (hr : ∀ f, ioctl = .flags f → f.setWidth 32 = (0 : BitVec 32)) :
    (a.refresh ioctl).1.netlink = false ∨ (a.refresh ioctl).1.flags = 0 := by
  cases ioctl with
  | noSocket => exact h
  | error errno => exact Or.inr rfl
  | flags f =>
    have hnat : f.toNat % 2 ^ 32 = 0 := by simpa using congrArg BitVec.toNat (hr f rfl)
    have hf : f = 0 := BitVec.eq_of_toNat_eq (by simp only [BitVec.ofNat_eq_ofNat, BitVec.toNat_ofNat]; omega)
    subst hf
    exact Or.inr rfl

/-- An input that reports no flags but zero leaves `intf.netlink` cleared, or the flags zero. -/
theorem step_gone {i : Input} (h : a.netlink = false ∨ a.flags = 0)
    (hr : ∀ f, i.reports a.name = some f → f = 0) (hb : a.step i = some b) :
    b.netlink = false ∨ b.flags = 0 := by
  cases i with
  | start ioctl index =>
    have hgone := refresh_gone h ioctl fun f hf => hr _ (by rw [hf]; rfl)
    cases hb
    cases ioctl <;> exact hgone
  | refresh ioctl =>
    cases hb
    exact refresh_gone h ioctl fun f hf => hr _ (by rw [hf]; rfl)
  | newLink ifi n =>
    cases hb
    simp only [Agent.newLink]
    split_ifs with hname hflags
    · exact h
    · exact Or.inr (hr _ (by simp [Agent.Input.reports, not_not.mp hname]))
    · exact h
  | delLink ifi =>
    cases hb
    simp only [Agent.delLink]
    split_ifs
    · exact h
    · exact Or.inl rfl
    · exact h

theorem exec_gone {is : List Input} (h : a.netlink = false ∨ a.flags = 0)
    (hr : ∀ j ∈ is, ∀ f, j.reports a.name = some f → f = 0) (hb : exec step a is = some b) :
    b.netlink = false ∨ b.flags = 0 := by
  induction is generalizing a with
  | nil =>
    cases hb
    exact h
  | cons i is ih =>
    obtain ⟨c, hc, hb⟩ := exec_cons_eq_some.mp hb
    have hname := step_name hc
    refine ih (step_gone h (hr i List.mem_cons_self) hc) (fun j hj f hf => ?_) hb
    rw [hname] at hf
    exact hr j (List.mem_cons_of_mem i hj) f hf

theorem removalMatches (a : Agent) (i : Input) : a.RemovalMatches i := by
  intro hrem is b hr hb
  obtain ⟨c, hc, hexec⟩ := exec_cons_eq_some.mp hb
  cases i with
  | delLink ifi =>
    obtain ⟨hindex, hacted⟩ := hrem
    have hgone : c.netlink = false := by
      cases hc
      simp [Agent.delLink, hindex, hacted]
    have hname := step_name hc
    exact noneMatches_of (exec_gone (Or.inl hgone) (fun j hj f hf => hr j hj f (hname ▸ hf)) hexec)
  | _ => exact hrem.elim

/-! ### Runs -/

/-- In every run the states match the flags of every report other than zero, and none after a removal that is
    acted on, if and only if each such report finds `intf.netlink` set or is a message with new flags. --/
theorem flags_match_iff (name : String) (is : List Input) :
    (Along step ReportMatches { name } is ∧ Along step RemovalMatches { name } is) ↔
      Along step Recorded { name } is := by
  constructor
  · rintro ⟨hm, -⟩
    exact hm.mono fun _ _ => reportMatches_iff.mp
  · intro hrec
    exact ⟨hrec.mono fun _ _ => reportMatches_iff.mpr,
      (hrec.mono fun a i _ => removalMatches a i)⟩

/-- A first refresh finds the interface up, and no state matches. --/
theorem no_match_after_refresh :
    ¬ ∀ (name : String) (is : List Input),
      Along step ReportMatches { name } is ∧ Along step RemovalMatches { name } is := by
  intro h
  have hm := (h "eth0" [.refresh (.flags 1)]).1.1 1 (by decide) (by decide) _ rfl
  exact absurd (netlink_of_flagsMatch hm) (by decide)

end UdjatNetwork.Nic
