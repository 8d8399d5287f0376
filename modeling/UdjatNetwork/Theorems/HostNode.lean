import UdjatNetwork.Ip.Factory
import UdjatNetwork.Theorems.Refresh

/-! # From a `<network-host>` to its agent

A node without a type is taken for the type `host`, and this type is an `IP::Agent` whatever else the node has, so
that its DNS states are never asked. A `DNS::Agent` does follow its states (`dns_follows`). -/

namespace UdjatNetwork

/-- The `dns-state` of the node names the code. -/
def StateNode.names (node : StateNode) (code : Int) : Bool :=
  Dns.dnsstates.any fun st => st.1 == code && strcasecmp (node.dnsState.getD "") st.2

/-- The state for a code: of the first state of the node that names it, or the predefined one. -/
def HostNode.dnsStateFor (node : HostNode) (code : Int) : Option Dns.State :=
  match node.states.find? (·.names code) with
  | some child => Dns.State.ofNode child
  | none => some (Dns.State.factory code)

namespace Dns
open Machine Agent

variable {a b : Agent} {env : RefreshEnv}

/-- In every run, a refresh whose query fails with a code leaves the state of the node for the code. -/
def Agent.Follows (node : HostNode) (a : Agent) : Prop :=
  ∀ is b, exec step a is = some b → ∀ env code, b.outcome env = .error (.dns code) →
    ∃ c, (b.refresh env).1 = .ok c ∧ c.dnsState = node.dnsStateFor code

/-! ### The DNS state of a run -/

/-- The state that the agent has for a code. -/
def Agent.stateFor (a : Agent) (code : Int) : State :=
  (a.dnsStates.find? (·.compare code)).getD (State.factory code)

/-- The DNS state of the agent is the one that it has for the code. -/
def Agent.Settled (a : Agent) : Prop := ∀ st, a.dnsState = some st → st = a.stateFor st.code

theorem stateFor_code (a : Agent) (code : Int) : (a.stateFor code).code = code := by
  unfold Agent.stateFor
  cases hf : a.dnsStates.find? (·.compare code) with
  | none => rfl
  | some st => simpa [State.compare, eq_comm] using List.find?_some hf

theorem set_states (h : a.Settled) (code : Int) :
    (a.set code).1.dnsStates = a.dnsStates ∧ (a.set code).1.dnsState = some (a.stateFor code) := by
  unfold Agent.set
  split_ifs with hany
  · obtain ⟨st, hst, hcmp⟩ := (Option.any_eq_true _ _).mp hany
    have hcode : code = st.code := by simpa [State.compare] using hcmp
    exact ⟨rfl, by rw [hst, hcode, ← h st hst]⟩
  · unfold Agent.stateFor
    cases a.dnsStates.find? (·.compare code) <;> exact ⟨rfl, rfl⟩

theorem refreshIp_states {start : Bool} (hb : (a.refreshIp start).state? = some b) :
    b.dnsStates = a.dnsStates ∧ b.dnsState = a.dnsState := by
  unfold Agent.refreshIp at hb
  cases hr : a.toAgent.refresh start <;> rw [hr] at hb <;> cases hb <;> exact ⟨rfl, rfl⟩

/-- A step keeps the states of the definition, and leaves the DNS state or chooses one for a code. -/
theorem step_states (h : a.Settled) {i : Input} (hb : a.step i = some b) :
    b.dnsStates = a.dnsStates ∧ (b.dnsState = a.dnsState ∨ ∃ code, b.dnsState = some (a.stateFor code)) := by
  cases i with
  | refresh env =>
    have hb : (a.refresh env).1.state? = some b := hb
    rw [refresh_spec] at hb
    rcases ho : a.outcome env with (code | _) | (_ | ⟨r, rs⟩) <;> rw [ho] at hb
    · obtain ⟨hstates, hstate⟩ := set_states (a := { a with serverIp := .empty, address := .empty }) h code
      cases hb
      exact ⟨hstates, Or.inr ⟨code, hstate⟩⟩
    · cases hb
      exact ⟨rfl, Or.inl rfl⟩
    · cases hb
    · obtain ⟨hstates, hstate⟩ := set_states (a := { a with serverIp := .empty, address := r.addr }) h NETDB_SUCCESS
      obtain ⟨hip, hip'⟩ := refreshIp_states hb
      exact ⟨hip.trans hstates, Or.inr ⟨NETDB_SUCCESS, hip'.trans hstate⟩⟩
  | result response source =>
    unfold Agent.step at hb
    dsimp only at hb
    split_ifs at hb
    cases hb
    exact ⟨rfl, Or.inl rfl⟩
  | computeState base ifaces =>
    cases hb
    unfold Agent.computeState
    rcases a.toAgent.computeState base ifaces with ⟨ip, _ | state⟩
    · exact ⟨rfl, Or.inl rfl⟩
    · dsimp only
      split <;> exact ⟨rfl, Or.inl rfl⟩
  | address addr =>
    cases hb
    exact ⟨rfl, Or.inl rfl⟩

theorem step_settled (h : a.Settled) {i : Input} (hb : a.step i = some b) : b.Settled := by
  obtain ⟨hstates, hsame | ⟨code, hcode⟩⟩ := step_states h hb
  · intro st hst
    rw [Agent.stateFor, hstates]
    exact h st (hsame ▸ hst)
  · intro st hst
    rw [hcode] at hst
    cases hst
    rw [stateFor_code, Agent.stateFor, Agent.stateFor, hstates]

theorem run_settled (h : a.Settled) {is : List Input} (hb : exec step a is = some b) :
    b.Settled ∧ b.dnsStates = a.dnsStates := by
  refine exec_induct (I := fun _ c => c.Settled ∧ c.dnsStates = a.dnsStates) ⟨h, rfl⟩ ?_ hb
  rintro - c i d ⟨hc, hstates⟩ hd
  exact ⟨step_settled hc hd, (step_states hc hd).1.trans hstates⟩

/-! ### The states of a node -/

theorem names_eq (node : StateNode) (code : Int) : node.names code = (State.ofNode node).any (·.compare code) := by
  -- The table gives each code one name, and the names differ.
  have hcodes : ∀ x ∈ dnsstates, ∀ y ∈ dnsstates, lower x.2 = lower y.2 → x.1 = y.1 := by decide
  unfold StateNode.names State.ofNode
  dsimp only
  split_ifs with hempty
  · rw [hempty]
    have hnone : ∀ st ∈ dnsstates, strcasecmp "" st.2 = false := by decide
    rw [Option.any_none, List.any_eq_false]
    intro st hst
    simp [hnone st hst]
  · cases hf : dnsstates.find? fun st => strcasecmp (node.dnsState.getD "") st.2 with
    | none =>
      rw [List.find?_eq_none] at hf
      rw [Option.map_none, Option.any_none, List.any_eq_false]
      intro st hst
      simp [hf st hst]
    | some st =>
      have hmem := List.mem_of_find?_eq_some hf
      have hname : strcasecmp (node.dnsState.getD "") st.2 = true := by simpa using List.find?_some hf
      rw [Option.map_some, Option.any_some, Bool.eq_iff_iff, List.any_eq_true]
      simp only [State.compare, decide_eq_true_eq, Bool.and_eq_true, beq_iff_eq]
      constructor
      · rintro ⟨other, hother, rfl, hsame⟩
        have hlower : lower other.2 = lower st.2 := by
          simp only [strcasecmp, beq_iff_eq] at hsame hname
          rw [← hsame, hname]
        exact hcodes other hother st hmem hlower
      · rintro rfl
        exact ⟨st, hmem, rfl, hname⟩

theorem setup_states (lib : Libudjat) (nodes : List StateNode) (a : Agent) :
    ∃ b, (Ip.Host.dns a).setup lib nodes = .dns b ∧ b.dnsStates = a.dnsStates ++ nodes.filterMap State.ofNode ∧
      b.dnsState = a.dnsState := by
  induction nodes generalizing a with
  | nil => exact ⟨a, rfl, (List.append_nil _).symm, rfl⟩
  | cons node nodes ih =>
    obtain ⟨c, hc, hstates, hstate⟩ : ∃ c, ((Ip.Host.dns a).stateFactory lib node).getD (.dns a) = .dns c ∧
        c.dnsStates = a.dnsStates ++ (State.ofNode node).toList ∧ c.dnsState = a.dnsState := by
      unfold Ip.Host.stateFactory Agent.stateFactory
      dsimp only
      split_ifs with hdns
      · cases State.ofNode node with
        | none => exact ⟨a, rfl, (List.append_nil _).symm, rfl⟩
        | some st => exact ⟨_, rfl, rfl, rfl⟩
      · have hnone : State.ofNode node = none := by
          rw [Option.not_isSome_iff_eq_none] at hdns
          simp [State.ofNode, hdns]
        rw [hnone]
        cases a.toAgent.stateFactory lib node <;> exact ⟨_, rfl, (List.append_nil _).symm, rfl⟩
    obtain ⟨b, hb, hstates', hstate'⟩ := ih c
    refine ⟨b, ?_, ?_, hstate'.trans hstate⟩
    · rw [← hb, ← hc]
      rfl
    · rw [hstates', hstates, List.append_assoc]
      cases hst : State.ofNode node <;> simp [hst]

theorem stateFor_eq {node : HostNode} (h : a.dnsStates = node.states.filterMap State.ofNode) (code : Int) :
    some (a.stateFor code) = node.dnsStateFor code := by
  have hnames : (fun child => (State.ofNode child).any (·.compare code)) = fun child => child.names code :=
    funext fun child => (names_eq child code).symm
  unfold Agent.stateFor HostNode.dnsStateFor
  rw [h, List.find?_filterMap, hnames]
  cases hf : node.states.find? fun child => child.names code with
  | none => rfl
  | some child =>
    have hchild : (State.ofNode child).any (·.compare code) = true := by
      rw [← names_eq]
      simpa using List.find?_some hf
    obtain ⟨st, hst, -⟩ := (Option.any_eq_true _ _).mp hchild
    simp [hst]

theorem failed_refresh (h : a.Settled) {code : Int} (ho : a.outcome env = .error (.dns code)) :
    ∃ b, (a.refresh env).1 = .ok b ∧ b.dnsState = some (a.stateFor code) := by
  rw [refresh_spec, ho]
  exact ⟨_, rfl, (set_states (a := { a with serverIp := .empty, address := .empty }) h code).2⟩

/-- A `DNS::Agent` with the states of its node follows them. -/
theorem dns_follows (lib : Libudjat) {node : HostNode} (ha : Agent.ofNode lib node = some a) :
    ∃ b, (Ip.Host.dns a).setup lib node.states = .dns b ∧ b.dnsStates = node.states.filterMap State.ofNode ∧
      b.Follows node := by
  obtain ⟨ip, -, rfl⟩ := Option.map_eq_some_iff.mp ha
  obtain ⟨b, hb, hstates, hstate⟩ := setup_states lib node.states _
  refine ⟨b, hb, hstates, fun is c hc env code ho => ?_⟩
  have hsettled : b.Settled := fun st hst => by
    rw [hstate] at hst
    cases hst
  obtain ⟨hc, hsame⟩ := run_settled hsettled hc
  obtain ⟨d, hd, hdns⟩ := failed_refresh hc ho
  exact ⟨d, hd, hdns.trans (stateFor_eq (hsame.trans hstates) code)⟩

end Dns

namespace Ip

/-- The node becomes a `DNS::Agent` that has a state for each child with a `dns-state`, and follows them. -/
def BuildsDns (lib : Libudjat) (node : HostNode) : Prop :=
  ∃ host a, Host.factory lib node = some host ∧ host.setup lib node.states = .dns a ∧
    (∀ child ∈ node.states, child.dnsState.isSome = true → ∃ st ∈ a.dnsStates, Dns.State.ofNode child = some st) ∧
    a.Follows node

/-- A node with a hostname and without a type becomes a `DNS::Agent`, and one with neither a hostname nor an
    address is rejected, unless it is of the type for the gateway. -/
def Documented (lib : Libudjat) (node : HostNode) : Prop :=
  (node.hostname.isSome = true → node.type = none → BuildsDns lib node) ∧
  (node.hostname = none → node.ip = none → (∀ t, node.type = some t → lib.select t "default-gateway" = false) →
    Host.factory lib node = none)

/-- A node without a type has an address and no hostname, and one of the type `host` has one of both. -/
def Usable (lib : Libudjat) (node : HostNode) : Prop :=
  (node.type = none → node.hostname = none ∧ node.ip.isSome = true) ∧
  (∀ t, node.type = some t → lib.select t "host" = true → lib.select t "default-gateway" = false →
    node.hostname.isSome = true ∨ node.ip.isSome = true)

variable {lib : Libudjat} {node : HostNode}

/-- A type that is taken for `host` is an `IP::Agent`. -/
theorem factory_host (h : lib.select (node.type.getD "host") "host" = true) :
    Host.factory lib node = (Agent.ofNode lib node).map .ip := by
  have hindex : lib.selectIndex (node.type.getD "host") ["host", "default-gateway"] = some 0 := by
    simp [Libudjat.selectIndex, List.findIdx?_cons, h]
  rw [Host.factory, hindex]
  rfl

theorem factory_other (hhost : lib.select (node.type.getD "host") "host" = false)
    (hgateway : lib.select (node.type.getD "host") "default-gateway" = false) (hhostname : node.hostname = none)
    (hip : node.ip = none) : Host.factory lib node = none := by
  have hindex : lib.selectIndex (node.type.getD "host") ["host", "default-gateway"] = none := by
    simp [Libudjat.selectIndex, List.findIdx?_cons, hhost, hgateway]
  rw [Host.factory, hindex, hhostname, hip]
  rfl

theorem setup_ip (lib : Libudjat) (nodes : List StateNode) (a : Agent) :
    ∃ b, (Host.ip a).setup lib nodes = .ip b := by
  induction nodes generalizing a with
  | nil => exact ⟨a, rfl⟩
  | cons node nodes ih =>
    obtain ⟨c, hc⟩ : ∃ c, ((Host.ip a).stateFactory lib node).getD (.ip a) = .ip c := by
      unfold Host.stateFactory
      dsimp only
      cases a.stateFactory lib node <;> exact ⟨_, rfl⟩
    obtain ⟨b, hb⟩ := ih c
    exact ⟨b, by rw [← hb, ← hc]; rfl⟩

/-- Nothing is rejected for want of an address. -/
theorem factory_no_ip (h : lib.select (node.type.getD "host") "host" = true) (hip : node.ip = none) :
    Host.factory lib node ≠ none := by
  rw [factory_host h, Agent.ofNode, hip]
  exact fun hnone => by cases hnone

theorem not_buildsDns (h : lib.select (node.type.getD "host") "host" = true) : ¬ BuildsDns lib node := by
  rintro ⟨host, a, hfactory, hsetup, -⟩
  rw [factory_host h] at hfactory
  obtain ⟨ip, -, rfl⟩ := Option.map_eq_some_iff.mp hfactory
  obtain ⟨b, hb⟩ := setup_ip lib node.states ip
  rw [hb] at hsetup
  cases hsetup

/-- When `select` takes a word for itself, a node is treated as documented if and only if it is not taken for a
    plain IP host, be it for want of a type, without an address or with a hostname, or by its type, without both. --/
theorem documented_iff (lib : Libudjat) (hselect : ∀ word, lib.select word word = true) (node : HostNode) :
    Documented lib node ↔ Usable lib node := by
  have hdefault : node.type = none → lib.select (node.type.getD "host") "host" = true := fun h => by
    rw [h]
    exact hselect "host"
  constructor
  · rintro ⟨hdns, hreject⟩
    have hnone : ∀ hhost : lib.select (node.type.getD "host") "host" = true, node.hostname = none →
        (∀ t, node.type = some t → lib.select t "default-gateway" = false) → node.ip.isSome = true := by
      intro hhost hhostname hgateway
      by_contra hip
      have hip : node.ip = none := by simpa using hip
      exact factory_no_ip hhost hip (hreject hhostname hip hgateway)
    refine ⟨fun htype => ?_, fun t ht hhost hgateway => ?_⟩
    · have hhostname : node.hostname = none := by
        by_contra hsome
        exact not_buildsDns (hdefault htype) (hdns (Option.isSome_iff_ne_none.mpr hsome) htype)
      exact ⟨hhostname, hnone (hdefault htype) hhostname fun t ht => by rw [htype] at ht; cases ht⟩
    · by_contra hneither
      obtain ⟨hhostname, hip⟩ := not_or.mp hneither
      refine hip (hnone (by rwa [ht]) (by simpa using hhostname) fun u hu => ?_)
      rw [ht] at hu
      cases hu
      exact hgateway
  · rintro ⟨huntyped, htyped⟩
    refine ⟨fun hhostname htype => ?_, fun hhostname hip hgateway => ?_⟩
    · rw [(huntyped htype).1] at hhostname
      cases hhostname
    · cases htype : node.type with
      | none =>
        have hsome := (huntyped htype).2
        rw [hip] at hsome
        cases hsome
      | some t =>
        by_cases hhost : lib.select t "host" = true
        · have hsome := htyped t htype hhost (hgateway t htype)
          rw [hhostname, hip] at hsome
          simp at hsome
        · refine factory_other ?_ ?_ hhostname hip <;> rw [htype]
          · simpa using hhost
          · exact hgateway t htype

/-- A node of the documentation. --/
theorem hostname_ignored :
    ¬ ∀ lib : Libudjat, (∀ word, lib.select word word = true) → ∀ node : HostNode, Documented lib node := by
  intro h
  let lib : Libudjat := ⟨fun _ => none, fun text word => text == word, fun _ => true⟩
  have hselect : ∀ word, lib.select word word = true := fun word => beq_self_eq_true word
  let node : HostNode :=
    { hostname := some "cdn.werneck.eti.br", icmp := some true,
      states := [{ name := "not-found", level := .error, dnsState := some "host-not-found" }] }
  have husable : Usable lib node := (documented_iff lib hselect node).mp (h lib hselect node)
  cases (husable.1 rfl).1

/-- The gateway of the documentation. --/
theorem documented_gateway :
    Documented ⟨fun _ => none, fun text word => text == word, fun _ => true⟩ { type := some "default-gateway" } := by
  refine (documented_iff _ (fun word => beq_self_eq_true word) _).mpr ⟨?_, ?_⟩
  · rintro ⟨⟩
  · rintro t ⟨⟩ hhost
    exact absurd hhost (by decide)

end Ip
end UdjatNetwork
