import UdjatNetwork.Dns.Agent

/-! # The state of an agent

`computeState` goes from the state of the base class to that of the subnet, of the ICMP check, and of the DNS query, and
takes the next one when its level is higher. -/

namespace UdjatNetwork

/-- The first of the candidates with the greatest level. -/
def Prevails {α : Type} (level : α → Level) (cs : List α) (c : α) : Prop :=
  ∃ earlier later, cs = earlier ++ c :: later ∧ (∀ x ∈ earlier, (level x).value < (level c).value) ∧
    ∀ x ∈ later, (level x).value ≤ (level c).value

namespace Prevails
variable {α β : Type} {level : α → Level} {cs : List α} {c : α}

theorem single (level : α → Level) (c : α) : Prevails level [c] c :=
  ⟨[], [], rfl, by simp, by simp⟩

theorem le (h : Prevails level cs c) : ∀ x ∈ cs, (level x).value ≤ (level c).value := by
  obtain ⟨earlier, later, rfl, hearlier, hlater⟩ := h
  intro x hx
  rcases List.mem_append.mp hx with hx | hx
  · exact (hearlier x hx).le
  · rcases List.mem_cons.mp hx with rfl | hx
    · exact Nat.le_refl _
    · exact hlater x hx

/-- One more candidate, behind the others, must have a higher level. -/
theorem next (h : Prevails level cs c) (o : Option α) :
    Prevails level (cs ++ o.toList) (o.elim c fun x => if (level x).value > (level c).value then x else c) := by
  cases o with
  | none => simpa using h
  | some x =>
    rw [Option.toList_some, Option.elim_some]
    split_ifs with hx
    · exact ⟨cs, [], rfl, fun y hy => (h.le y hy).trans_lt hx, by simp⟩
    · obtain ⟨earlier, later, rfl, hearlier, hlater⟩ := h
      refine ⟨earlier, later ++ [x], by simp, hearlier, fun y hy => ?_⟩
      rcases List.mem_append.mp hy with hy | hy
      · exact hlater y hy
      · cases List.mem_singleton.mp hy
        exact Nat.le_of_not_lt hx

theorem map {level' : β → Level} {f : α → β} (hf : ∀ x, level' (f x) = level x) (h : Prevails level cs c) :
    Prevails level' (cs.map f) (f c) := by
  obtain ⟨earlier, later, rfl, hearlier, hlater⟩ := h
  refine ⟨earlier.map f, later.map f, by simp, ?_, ?_⟩
  · simpa [hf] using hearlier
  · simpa [hf] using hlater

end Prevails

namespace Ip

/-- The addresses that a comparison answers whenever it can read the interfaces. -/
def Comparable (addr : Address) : Prop := addr = .empty ∨ ∃ a, addr = .inet a

/-- The first of the subnet states that matches the address, as the comparison leaves it. -/
def Agent.firstMatch (a : Agent) (ifaces : List Interface) : Option State :=
  (a.ipStates.find? fun st => decide ((st.compare (some ifaces) a.address).2 = some true)).map fun st =>
    (st.compare (some ifaces) a.address).1

def Agent.candidates (a : Agent) (base : Level) (ifaces : List Interface) : List Computed :=
  .base base :: (((a.firstMatch ifaces).map Computed.ip).toList ++ (a.icmpState.map Computed.icmp).toList)

theorem compare_answers (st : State) (ifaces : List Interface) {addr : Address} (h : Comparable addr) :
    ∃ b, (st.compare (some ifaces) addr).2 = some b := by
  rcases h with rfl | ⟨a, rfl⟩
  · exact ⟨_, rfl⟩
  · simp only [State.compare, State.compareInet]
    split
    · exact ⟨_, rfl⟩
    · split <;> exact ⟨_, rfl⟩

theorem findSubnet_first (ifaces : List Interface) {addr : Address} (h : Comparable addr) (sts : List State) :
    (Agent.findSubnet (some ifaces) addr sts).2 =
      some ((sts.find? fun st => decide ((st.compare (some ifaces) addr).2 = some true)).map fun st =>
        (st.compare (some ifaces) addr).1) := by
  induction sts with
  | nil => rfl
  | cons st sts ih =>
    obtain ⟨b, hb⟩ := compare_answers st ifaces h
    have hpair : st.compare (some ifaces) addr = ((st.compare (some ifaces) addr).1, some b) := Prod.ext rfl hb
    unfold Agent.findSubnet
    rw [hpair]
    cases b with
    | true => simp [hb]
    | false => simp [hb, ih]

theorem Agent.computeState_eq (a : Agent) (base : Level) (ifaces : List Interface) (h : Comparable a.address) :
    ∃ b, a.computeState base (some ifaces) = (b, some (Computed.max (Computed.max (.base base)
        ((a.firstMatch ifaces).map .ip)) (a.icmpState.map .icmp))) ∧
      b.ipState = a.firstMatch ifaces := by
  have hfirst := findSubnet_first ifaces h a.ipStates
  unfold Agent.computeState
  rcases hfind : Agent.findSubnet (some ifaces) a.address a.ipStates with ⟨ipStates, _ | ipState⟩
  · rw [hfind] at hfirst
    cases hfirst
  · rw [hfind] at hfirst
    obtain rfl : ipState = a.firstMatch ifaces := Option.some.inj hfirst
    exact ⟨_, rfl, rfl⟩

theorem max_elim (state : Computed) (o : Option Computed) :
    Computed.max state o = o.elim state fun x => if x.level.value > state.level.value then x else state := by
  cases o <;> rfl

theorem Agent.max_prevails (a : Agent) (base : Level) (ifaces : List Interface) :
    Prevails Computed.level (a.candidates base ifaces)
      (Computed.max (Computed.max (.base base) ((a.firstMatch ifaces).map .ip)) (a.icmpState.map .icmp)) := by
  have hfirst := (Prevails.single Computed.level (.base base)).next ((a.firstMatch ifaces).map .ip)
  have hboth := hfirst.next (a.icmpState.map .icmp)
  rw [List.append_assoc, List.singleton_append] at hboth
  rw [max_elim, max_elim]
  exact hboth

end Ip

namespace Dns

/-- The level of what `computeState` returns. -/
def level : Ip.Computed ⊕ State → Level := Sum.elim Ip.Computed.level State.level

def Agent.candidates (a : Agent) (base : Level) (ifaces : List Ip.Interface) : List (Ip.Computed ⊕ State) :=
  (a.toAgent.candidates base ifaces).map .inl ++ (a.dnsState.map Sum.inr).toList

theorem Agent.computeState_eq (a : Agent) (base : Level) (ifaces : List Ip.Interface) (h : Ip.Comparable a.address) :
    ∃ b c, a.computeState base (some ifaces) = (b, some c) ∧ b.ipState = a.toAgent.firstMatch ifaces ∧
      Prevails level (a.candidates base ifaces) c := by
  obtain ⟨ip, hip, hstate⟩ := a.toAgent.computeState_eq base ifaces h
  have hlevel : ∀ c, level (.inl c) = c.level := fun _ => rfl
  have hlast := ((a.toAgent.max_prevails base ifaces).map hlevel).next (a.dnsState.map Sum.inr)
  unfold Agent.computeState
  rw [hip]
  unfold Agent.candidates
  cases hdns : a.dnsState with
  | none =>
    rw [hdns] at hlast
    exact ⟨_, _, rfl, hstate, hlast⟩
  | some st =>
    rw [hdns] at hlast
    exact ⟨_, _, rfl, hstate, hlast⟩

/-- With an IPv4 address or none, both kinds of agents return the first of their states with the greatest level, in the
    order base class, subnet, ICMP, DNS, and the subnet state is the first one that matches the address. --/
theorem computeState_prevails (base : Level) (ifaces : List Ip.Interface) :
    (∀ a : Ip.Agent, Ip.Comparable a.address → ∃ b c, a.computeState base (some ifaces) = (b, some c) ∧
      b.ipState = a.firstMatch ifaces ∧ Prevails Ip.Computed.level (a.candidates base ifaces) c) ∧
    ∀ a : Agent, Ip.Comparable a.address → ∃ b c, a.computeState base (some ifaces) = (b, some c) ∧
      b.ipState = a.toAgent.firstMatch ifaces ∧ Prevails level (a.candidates base ifaces) c := by
  refine ⟨fun a h => ?_, fun a h => a.computeState_eq base ifaces h⟩
  obtain ⟨b, hb, hstate⟩ := a.computeState_eq base ifaces h
  exact ⟨b, _, hb, hstate, a.max_prevails base ifaces⟩

/-- The network 10.0.0.0/8 and a DNS state of the same level. --/
theorem computeState_prevails_ten :
    let ten : Ip.State := { level := .warning, kind := .subnet, subnet := { addr := .inet 0x0000000A, bits := 8 } }
    let ip : Ip.Agent := { address := .inet 0x0302010A, ipStates := [ten] }
    let dns : Agent := { ip with dnsState := some { name := "resolved", level := .warning, code := 0 } }
    (∃ b c, ip.computeState .ready (some []) = (b, some c) ∧ b.ipState = ip.firstMatch [] ∧
      Prevails Ip.Computed.level (ip.candidates .ready []) c) ∧
    ∃ b c, dns.computeState .ready (some []) = (b, some c) ∧ b.ipState = dns.toAgent.firstMatch [] ∧
      Prevails level (dns.candidates .ready []) c := by
  intro ten ip dns
  exact ⟨(computeState_prevails .ready []).1 ip (Or.inr ⟨_, rfl⟩), (computeState_prevails .ready []).2 dns (Or.inr ⟨_, rfl⟩)⟩

end Dns
end UdjatNetwork
