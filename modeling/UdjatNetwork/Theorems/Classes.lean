import UdjatNetwork.Support.Projection
import UdjatNetwork.Theorems.StaleState

/-! # Agents of derived classes

A DNS agent and a default gateway are IP agents that find their address themselves. Whatever they do, their IP part does
what an IP agent does whose owner gives it that address; and what it shows, as every IP agent, is the last result that it
was told. -/

namespace UdjatNetwork.Ip
open Machine

variable {a b : Agent} {g t : Gateway}

/-! ### What an agent shows -/

/-- What the ICMP state of an agent is for: it shows the last result, and counts the results. -/
structure Indicator where
  last : Option Icmp.Response
  told : Nat

def Indicator.step (d : Indicator) (response : Icmp.Response) : Option Indicator :=
  some { last := some response, told := d.told + 1 }

def Agent.indicator (a : Agent) : Indicator where
  last := a.icmpState.map (·.id)
  told := a.updates

/-- The result that an input tells, when it tells one. -/
def Agent.Input.told : Agent.Input → List Icmp.Response
  | .result response _ => if response = .invalid then [] else [response]
  | _ => []

theorem indicator_exec (d : Indicator) (rs : List Icmp.Response) :
    exec Indicator.step d rs = some { last := rs.getLast?.or d.last, told := d.told + rs.length } := by
  induction rs generalizing d with
  | nil => rfl
  | cons r rs ih =>
    have hlast : (r :: rs).getLast?.or d.last = rs.getLast?.or (some r) := by
      rw [List.getLast?_cons]
      cases rs.getLast? <;> rfl
    have hfirst : exec Indicator.step d (r :: rs) =
        exec Indicator.step { last := some r, told := d.told + 1 } rs := rfl
    rw [hfirst, ih, hlast, List.length_cons, Nat.add_assoc, Nat.add_comm 1]

theorem set_indicator (ha : a.response = .invalid) (response : Icmp.Response) (source : Address) :
    exec Indicator.step a.indicator (if response = .invalid then [] else [response]) =
      some (a.set response source).indicator := by
  rw [set_eq, ha]
  split_ifs
  · rfl
  · obtain ⟨st, hst, hid⟩ := stateFor_id a response
    rw [indicator_exec, Agent.indicator, Agent.indicator, hst]
    simp [hid]

/-- An agent is a machine that shows results; the response that it compares them with stays `invalid`. -/
theorem agent_projects : Projects Agent.step Indicator.step (fun a => a.response = .invalid) (fun _ _ => True)
    Agent.indicator (fun _ => Agent.Input.told) where
  keeps a i b ha _ hb := by
    cases i with
    | refresh start =>
      obtain ⟨c, hc, rfl | ⟨-, rfl⟩ | ⟨-, rfl⟩⟩ := refresh_cases a start <;> cases hc.symm.trans hb
      · exact ha
      · rw [set_response]
        exact ha
      · exact ha
    | result response source =>
      change (if a.running then _ else none) = some b at hb
      split_ifs at hb
      cases hb
      exact (set_response response source).trans ha
    | computeState base ifaces =>
      cases hb
      unfold Agent.computeState
      split <;> exact ha
    | address addr =>
      cases hb
      exact ha
  run a i b ha _ hb := by
    cases i with
    | refresh start =>
      obtain ⟨c, hc, rfl | ⟨-, rfl⟩ | ⟨-, rfl⟩⟩ := refresh_cases a start <;> cases hc.symm.trans hb
      · rfl
      · rw [set_eq, if_pos (show Icmp.Response.invalid = a.response from ha.symm)]
        rfl
      · rfl
    | result response source =>
      change (if a.running then _ else none) = some b at hb
      split_ifs at hb
      cases hb
      exact set_indicator ha response source
    | computeState base ifaces =>
      cases hb
      unfold Agent.computeState
      split <;> rfl
    | address addr =>
      cases hb
      rfl

/-! ### Default gateways -/

/-- What the IP part of a gateway takes: the address that was detected, and then its own refresh. -/
def Gateway.inputs (g : Gateway) : Gateway.Input → List Agent.Input
  | .refresh env start =>
    match g.detect env with
    | (.ok g, _) => [.address g.address, .refresh start]
    | _ => []
  | .result response source => [.result response source]
  | .computeState base ifaces => [.computeState base ifaces]
  | .address addr => [.address addr]

def Gateway.Input.told : Gateway.Input → List Icmp.Response
  | .result response _ => if response = .invalid then [] else [response]
  | _ => []

/-- What `detect` leaves of the IP part: with an exception all of it, and else all but the address. -/
theorem detect_toAgent (g : Gateway) (env : DetectEnv) :
    (∃ u, g.detect env = (.threw u, false) ∧ u.toAgent = g.toAgent) ∨
      ∃ u changed, g.detect env = (.ok u, changed) ∧ u.toAgent = { g.toAgent with address := u.address } := by
  unfold Gateway.detect
  split_ifs
  · exact Or.inl ⟨g, rfl, rfl⟩
  · split
    · exact Or.inl ⟨g, rfl, rfl⟩
    · split
      · exact Or.inl ⟨_, rfl, rfl⟩
      · split_ifs
        · exact Or.inr ⟨_, _, rfl, rfl⟩
        · exact Or.inr ⟨_, _, rfl, rfl⟩

theorem gateway_projects : Projects Gateway.step Agent.step (fun _ => True) (fun _ _ => True) Gateway.toAgent
    Gateway.inputs where
  keeps := fun _ _ _ _ _ _ => trivial
  run g i t _ _ ht := by
    cases i with
    | refresh env start =>
      change (g.refresh env start).1.state? = some t at ht
      unfold Gateway.refresh at ht
      unfold Gateway.inputs
      obtain ⟨u, hu, hsame⟩ | ⟨u, changed, hu, hsame⟩ := detect_toAgent g env <;> rw [hu] at ht <;> simp only [hu]
      · cases ht
        rw [hsame]
        rfl
      · have haddress : Agent.step g.toAgent (.address u.address) = some u.toAgent := by rw [hsame]; rfl
        rw [exec, haddress, Option.bind_some, exec]
        unfold Gateway.refreshIp at ht
        dsimp only at ht
        split at ht <;> rename_i hr <;> cases ht <;> rw [Agent.step, hr] <;> rfl
    | result response source =>
      change (if g.running then _ else none) = some t at ht
      split_ifs at ht with hrunning
      cases ht
      rw [Gateway.inputs, exec, Agent.step, if_pos hrunning]
      rfl
    | computeState base ifaces =>
      cases ht
      rfl
    | address addr =>
      cases ht
      rfl

end UdjatNetwork.Ip

namespace UdjatNetwork.Dns
open Machine

variable {a b : Agent}

/-! ### DNS agents -/

/-- What the IP part of a DNS agent takes: after an error the empty address, else the address that was found, and then
    its own refresh. -/
def Agent.inputs (a : Agent) : Agent.Input → List Ip.Agent.Input
  | .refresh env =>
    match a.resolveServer env with
    | .error _ => [.address .empty]
    | .ok none => []
    | .ok (some a) =>
      match a.resolveHost env with
      | .error _ => [.address .empty]
      | .ok none => []
      | .ok (some a) => [.address a.address, .refresh env.start]
  | .result response source => [.result response source]
  | .computeState base ifaces => [.computeState base ifaces]
  | .address addr => [.address addr]

def Agent.Input.told : Agent.Input → List Icmp.Response
  | .result response _ => if response = .invalid then [] else [response]
  | _ => []

theorem caught_toAgent {e : Error} (hb : (a.caught e).1.state? = some b) :
    b.toAgent = { a.toAgent with address := .empty } := by
  cases e with
  | dns code =>
    cases hb
    exact set_toAgent code
  | other =>
    cases hb
    rfl

theorem agent_projects : Projects Agent.step Ip.Agent.step (fun _ => True) (fun _ _ => True) Agent.toAgent
    Agent.inputs where
  keeps := fun _ _ _ _ _ _ => trivial
  run a i b _ _ hb := by
    have cleared : ∀ {c : Agent} {e : Error}, c.toAgent = a.toAgent → (c.caught e).1.state? = some b →
        exec Ip.Agent.step a.toAgent [.address .empty] = some b.toAgent := fun hc hb => by
      rw [caught_toAgent hb, hc]
      rfl
    cases i with
    | refresh env =>
      change (a.refresh env).1.state? = some b at hb
      unfold Agent.refresh at hb
      unfold Agent.inputs
      rcases hserver : a.resolveServer env with e | (_ | c) <;> simp only [hserver] at hb ⊢
      · exact cleared rfl hb
      · cases hb
      have hc := resolveServer_toAgent hserver
      rcases hhost : c.resolveHost env with e | (_ | d) <;> simp only [hhost] at hb ⊢
      · exact cleared hc hb
      · cases hb
      obtain ⟨address, hd⟩ := resolveHost_toAgent hhost
      have haddress : Ip.Agent.step a.toAgent (.address d.address) = some d.toAgent := by
        rw [Ip.Agent.step, ← hc, hd]
      rw [exec, haddress, Option.bind_some, exec, Ip.Agent.step, ← set_toAgent NETDB_SUCCESS]
      unfold Agent.refreshIp at hb
      split at hb <;> rename_i hr <;> cases hb <;> rw [hr] <;> rfl
    | result response source =>
      change (if a.running then _ else none) = some b at hb
      split_ifs at hb with hrunning
      cases hb
      rw [Agent.inputs, exec, Ip.Agent.step, if_pos hrunning]
      rfl
    | computeState base ifaces =>
      cases hb
      rw [Agent.inputs, exec, Ip.Agent.step, Option.bind_some]
      change some _ = some _
      unfold Agent.computeState
      rcases a.toAgent.computeState base ifaces with ⟨ip, _ | state⟩
      · rfl
      · cases a.dnsState <;> rfl
    | address addr =>
      cases hb
      rfl

end UdjatNetwork.Dns

namespace UdjatNetwork.Ip
open Machine

/-! ### All of them -/

section Derived
variable {σ ι : Type} {step : σ → ι → Option σ} {toAgent : σ → Agent} {inputs : σ → ι → List Agent.Input}
  {told : ι → List Icmp.Response}

/-- Agents of a class can stand for IP agents: a run of one is, for its IP part, a run of an IP agent, and it keeps all
    along whatever every run of that agent keeps. -/
def Substitutes (step : σ → ι → Option σ) (toAgent : σ → Agent) (inputs : σ → ι → List Agent.Input) : Prop :=
  ∀ s is, (∀ t, exec step s is = some t → exec Agent.step (toAgent s) (trace step inputs s is) = some (toAgent t)) ∧
    ∀ P, (∀ js, Always Agent.step P (toAgent s) js) → Always step (fun s => P (toAgent s)) s is

/-- Agents of a class show the last result that they were told, and count them all. -/
def ShowsLast (step : σ → ι → Option σ) (toAgent : σ → Agent) (told : ι → List Icmp.Response) : Prop :=
  ∀ s is t, (toAgent s).response = .invalid → exec step s is = some t →
    (toAgent t).indicator.last = (is.flatMap told).getLast?.or (toAgent s).indicator.last ∧
      (toAgent t).updates = (toAgent s).updates + (is.flatMap told).length

theorem anything_along (s : σ) (is : List ι) : Along step (fun _ _ => True) s is :=
  along_of_forall fun _ _ => trivial

theorem substitutes_of_projects (h : Projects step Agent.step (fun _ => True) (fun _ _ => True) toAgent inputs) :
    Substitutes step toAgent inputs := fun s is =>
  ⟨fun _ ht => h.exec trivial (anything_along s is) ht, fun _ hP => h.always trivial (anything_along s is) (hP _)⟩

theorem showsLast_of_projects (h : Projects step Agent.step (fun _ => True) (fun _ _ => True) toAgent inputs)
    (htold : ∀ s i, trace Agent.step (fun _ => Agent.Input.told) (toAgent s) (inputs s i) = told i) :
    ShowsLast step toAgent told := by
  intro s is t hs ht
  have hcomp := h.comp agent_projects
  have hrun := hcomp.exec ⟨trivial, hs⟩ (anything_along s is) ht
  have hall := trace_inputs (g := fun r => [r]) (h := told) hcomp.keeps
    (fun s i _ _ _ _ => (List.flatMap_singleton' _).trans (htold s i)) ⟨trivial, hs⟩ (anything_along s is) ht
  rw [List.flatMap_singleton'] at hall
  rw [hall, indicator_exec] at hrun
  have hrun := Option.some.inj hrun
  exact ⟨(congrArg Indicator.last hrun).symm, (congrArg Indicator.told hrun).symm⟩

end Derived

/-- For every run of a DNS agent or of a default gateway, whatever its queries and detections give, its IP part runs as
    an IP agent that is given the addresses that were found, and nothing after an error; all that every run of such an
    IP agent keeps, the DNS agent and the gateway keep. --/
theorem derived_substitute :
    Substitutes Dns.Agent.step Dns.Agent.toAgent Dns.Agent.inputs ∧
      Substitutes Gateway.step Gateway.toAgent Gateway.inputs :=
  ⟨substitutes_of_projects Dns.agent_projects, substitutes_of_projects gateway_projects⟩

/-- A DNS agent whose name is not found, then found, and that gets a timeout. --/
theorem derived_substitute_found :
    let a : Dns.Agent := { hostname := "a" }
    let is : List Dns.Agent.Input :=
      [.refresh { answer := .failed Dns.HOST_NOT_FOUND }, .refresh { answer := .response [⟨1, [10, 0, 0, 1], true⟩] },
        .result .timeout .empty]
    (∃ b, exec Dns.Agent.step a is = some b ∧ exec Agent.step a.toAgent
      [.address .empty, .address (.inet 0x0100000A), .refresh true, .result .timeout .empty] = some b.toAgent) ∧
      Always Dns.Agent.step (fun b => b.toAgent.response = .invalid) a is := by
  intro a is
  obtain ⟨hrun, hkept⟩ := derived_substitute.1 a is
  have hdefined : (exec Dns.Agent.step a is).isSome := by decide
  obtain ⟨b, hb⟩ := Option.isSome_iff_exists.mp hdefined
  have hinputs : trace Dns.Agent.step Dns.Agent.inputs a is =
      [.address .empty, .address (.inet 0x0100000A), .refresh true, .result .timeout .empty] := by rfl
  exact ⟨⟨b, hb, hinputs ▸ hrun b hb⟩, hkept (fun b => b.response = .invalid) fun js =>
    always_of_along (fun s i t hs hi ht => agent_projects.keeps s i t hs hi ht) rfl (anything_along _ js)⟩

theorem trace_one {a : Agent} (j : Agent.Input) :
    trace Agent.step (fun _ => Agent.Input.told) a [j] = j.told := by
  rw [trace]
  cases Agent.step a j with
  | none => exact List.append_nil _
  | some b => exact List.append_nil _

theorem trace_found {a : Agent} (addr : Address) (start : Bool) :
    trace Agent.step (fun _ => Agent.Input.told) a [.address addr, .refresh start] = [] :=
  trace_one (.refresh start)

/-- In every run of an IP agent, of a DNS agent and of a default gateway, through all refreshes, failures and changes of
    the address, the ICMP state is one for the last result, and there was one update for each. --/
theorem last_result_shown :
    ShowsLast Agent.step id Agent.Input.told ∧ ShowsLast Dns.Agent.step Dns.Agent.toAgent Dns.Agent.Input.told ∧
      ShowsLast Gateway.step Gateway.toAgent Gateway.Input.told := by
  refine ⟨fun a is b ha hb => ?_, showsLast_of_projects Dns.agent_projects fun a i => ?_,
    showsLast_of_projects gateway_projects fun g i => ?_⟩
  · have hrun := agent_projects.exec ha (anything_along a is) hb
    have hall := trace_inputs (g := fun r => [r]) (h := Agent.Input.told) agent_projects.keeps
      (fun _ _ _ _ _ _ => List.flatMap_singleton' _) ha (anything_along a is) hb
    rw [List.flatMap_singleton'] at hall
    rw [hall, indicator_exec] at hrun
    have hrun := Option.some.inj hrun
    exact ⟨(congrArg Indicator.last hrun).symm, (congrArg Indicator.told hrun).symm⟩
  · cases i with
    | refresh env =>
      unfold Dns.Agent.inputs
      dsimp only
      split
      · exact trace_one _
      · rfl
      · split
        · exact trace_one _
        · rfl
        · exact trace_found _ _
    | result | computeState | address => exact trace_one _
  · cases i with
    | refresh env start =>
      unfold Gateway.inputs
      dsimp only
      split
      · exact trace_found _ _
      · rfl
    | result | computeState | address => exact trace_one _

/-- A DNS agent whose name is found, that gets a timeout, and whose name is not found any more; and a default gateway
    that gets a timeout and then an exception from its socket. --/
theorem last_result_shown_timeout :
    let a : Dns.Agent := { hostname := "a" }
    let found : Dns.RefreshEnv := { answer := .response [⟨1, [10, 0, 0, 1], true⟩] }
    let lost : Dns.RefreshEnv := { answer := .failed Dns.HOST_NOT_FOUND }
    let g : Gateway := { address := .inet 0x0100000A, running := true }
    let noSocket : DetectEnv := { socket := false, recvs := [], ifname := fun _ => "" }
    (∃ b, exec Dns.Agent.step a [.refresh found, .result .timeout .empty, .refresh lost] = some b ∧
      b.toAgent.indicator.last = some .timeout ∧ b.updates = 1) ∧
      ∃ t, exec Gateway.step g [.result .timeout .empty, .refresh noSocket true] = some t ∧
        t.toAgent.indicator.last = some .timeout ∧ t.updates = 1 := by
  intro a found lost g noSocket
  obtain ⟨-, hdns, hgateway⟩ := last_result_shown
  have hb : (exec Dns.Agent.step a [.refresh found, .result .timeout .empty, .refresh lost]).isSome := by decide
  have ht : (exec Gateway.step g [.result .timeout .empty, .refresh noSocket true]).isSome := by decide
  obtain ⟨b, hb⟩ := Option.isSome_iff_exists.mp hb
  obtain ⟨t, ht⟩ := Option.isSome_iff_exists.mp ht
  exact ⟨⟨b, hb, hdns a _ b rfl hb⟩, t, ht, hgateway g _ t rfl ht⟩

end UdjatNetwork.Ip
