import UdjatNetwork.Theorems.Hosts

/-! # From a configuration to what is shown

The agent of a `<network-host>` has the ICMP states of its node, in the order of the document; and what it shows in a run
is the first of them for the last result. -/

namespace UdjatNetwork.Ip
open Machine
open Icmp (WorkerId)

variable {lib : Libudjat} {node : HostNode} {h u : Host}

/-- The agent of a node, with its states. -/
def Host.ofNode (lib : Libudjat) (node : HostNode) : Option Host :=
  (Host.factory lib node).map fun h => h.setup lib node.states

/-- The ICMP state that a host makes of a `<state>`; a DNS agent takes one with a `dns-state` for its own. -/
def Host.icmpState? (h : Host) (node : StateNode) : Option Icmp.State :=
  match h with
  | .dns _ => if node.dnsState.isSome || node.icmpResponse.isNone then none else Icmp.State.ofNode node
  | _ => if node.icmpResponse.isNone then none else Icmp.State.ofNode node

/-- The state of a node for a response: the first one of the document, or else the predefined one. -/
def Host.icmpStateFor (h : Host) (node : HostNode) (response : Icmp.Response) : Option Icmp.State :=
  ((node.states.filterMap h.icmpState?).find? (·.id = response)).or (Icmp.State.factory response)

/-- A host shows nothing yet, and has the states. -/
structure Host.Fresh (h : Host) (states : List Icmp.State) : Prop where
  icmpStates : h.toAgent.icmpStates = states
  icmpState : h.toAgent.icmpState = none
  response : h.toAgent.response = .invalid

/-! ### States -/

/-- A `<state>` that an agent takes, or leaves out, adds to its ICMP states at most one. -/
theorem stateFactory_agent (lib : Libudjat) (a : Agent) (node : StateNode) :
    ∃ b, (a.stateFactory lib node).getD a = b ∧ b.icmpState = a.icmpState ∧ b.response = a.response ∧
      b.icmpStates = a.icmpStates ++ (if node.icmpResponse.isNone then none else Icmp.State.ofNode node).toList := by
  refine ⟨_, rfl, ?_⟩
  unfold Agent.stateFactory
  cases node.icmpResponse with
  | some text =>
    rw [if_pos Option.isSome_some, if_neg (by simp)]
    cases Icmp.State.ofNode node with
    | none => exact ⟨rfl, rfl, (List.append_nil _).symm⟩
    | some st => exact ⟨rfl, rfl, rfl⟩
  | none =>
    rw [if_neg (by simp), if_pos Option.isNone_none]
    split_ifs
    · cases State.ofNode lib node <;> exact ⟨rfl, rfl, (List.append_nil _).symm⟩
    · exact ⟨rfl, rfl, (List.append_nil _).symm⟩
    · exact ⟨rfl, rfl, (List.append_nil _).symm⟩

theorem stateFactory_fresh {states : List Icmp.State} (hh : h.Fresh states) (lib : Libudjat) (node : StateNode) :
    ∃ u, (h.stateFactory lib node).getD h = u ∧ u.Fresh (states ++ (h.icmpState? node).toList) ∧
      u.icmpState? = h.icmpState? := by
  have given : ∀ {u : Host} {a : Agent} {sts : List Icmp.State}, u.toAgent = (a.stateFactory lib node).getD a →
      a = h.toAgent → (if node.icmpResponse.isNone then none else Icmp.State.ofNode node).toList = sts →
      u.Fresh (states ++ sts) := fun {u a sts} hu ha hsts => by
    obtain ⟨b, hb, hstate, hresponse, hstates⟩ := stateFactory_agent lib a node
    rw [hb] at hu
    subst ha
    refine ⟨?_, ?_, ?_⟩
    · rw [hu, hstates, hh.icmpStates, hsts]
    · rw [hu, hstate, hh.icmpState]
    · rw [hu, hresponse, hh.response]
  cases h with
  | ip a =>
    refine ⟨.ip ((a.stateFactory lib node).getD a), ?_, given rfl rfl rfl, rfl⟩
    change ((a.stateFactory lib node).map Host.ip).getD (.ip a) = _
    cases a.stateFactory lib node <;> rfl
  | gateway g =>
    refine ⟨.gateway { g with toAgent := (g.toAgent.stateFactory lib node).getD g.toAgent }, ?_, given rfl rfl rfl, rfl⟩
    change ((g.toAgent.stateFactory lib node).map fun a => Host.gateway { g with toAgent := a }).getD (.gateway g) = _
    cases g.toAgent.stateFactory lib node <;> rfl
  | dns d =>
    change ∃ u, ((d.stateFactory lib node).map Host.dns).getD (.dns d) = u ∧ _
    unfold Dns.Agent.stateFactory
    cases hdns : node.dnsState with
    | some text =>
      have hnone : Host.icmpState? (.dns d) node = none := by simp [Host.icmpState?, hdns]
      rw [hnone, if_pos Option.isSome_some]
      cases Dns.State.ofNode node with
      | none => exact ⟨_, rfl, by rwa [Option.toList_none, List.append_nil], rfl⟩
      | some st => exact ⟨_, rfl, by rw [Option.toList_none, List.append_nil]; exact ⟨hh.1, hh.2, hh.3⟩, rfl⟩
    | none =>
      refine ⟨.dns { d with toAgent := (d.toAgent.stateFactory lib node).getD d.toAgent }, ?_,
        given rfl rfl (by simp [Host.icmpState?, hdns]), rfl⟩
      rw [if_neg (by simp)]
      cases d.toAgent.stateFactory lib node <;> rfl

/-- The ICMP states of a host, in the order of the document. -/
theorem setup_fresh {states : List Icmp.State} (hh : h.Fresh states) (lib : Libudjat) (nodes : List StateNode) :
    (h.setup lib nodes).Fresh (states ++ nodes.filterMap h.icmpState?) := by
  induction nodes generalizing h states with
  | nil => rwa [List.filterMap_nil, List.append_nil]
  | cons node nodes ih =>
    obtain ⟨u, hu, hfresh, hsame⟩ := stateFactory_fresh hh lib node
    have hrest := ih hfresh
    have hnext : h.setup lib (node :: nodes) = u.setup lib nodes := by rw [← hu]; rfl
    rw [hnext]
    rw [hsame, List.append_assoc] at hrest
    cases hst : h.icmpState? node with
    | none => rwa [List.filterMap_cons_none hst, ← List.nil_append (nodes.filterMap _), ← Option.toList_none, ← hst]
    | some st =>
      rw [List.filterMap_cons_some hst]
      rwa [hst] at hrest

theorem ofNode_agent {a : Agent} (ha : Agent.ofNode lib node = some a) :
    a.icmpStates = [] ∧ a.icmpState = none ∧ a.response = .invalid := by
  unfold Agent.ofNode at ha
  split at ha
  · obtain ⟨addr, -, rfl⟩ := Option.map_eq_some_iff.mp ha
    exact ⟨rfl, rfl, rfl⟩
  · cases ha
    exact ⟨rfl, rfl, rfl⟩

theorem factory_fresh (hh : Host.factory lib node = some h) : h.Fresh [] := by
  unfold Host.factory at hh
  split at hh
  · obtain ⟨a, ha, rfl⟩ := Option.map_eq_some_iff.mp hh
    exact ⟨(ofNode_agent ha).1, (ofNode_agent ha).2.1, (ofNode_agent ha).2.2⟩
  · obtain ⟨g, hg, rfl⟩ := Option.map_eq_some_iff.mp hh
    obtain ⟨a, ha, rfl⟩ := Option.map_eq_some_iff.mp hg
    exact ⟨(ofNode_agent ha).1, (ofNode_agent ha).2.1, (ofNode_agent ha).2.2⟩
  · split_ifs at hh
    · obtain ⟨d, hd, rfl⟩ := Option.map_eq_some_iff.mp hh
      obtain ⟨a, ha, rfl⟩ := Option.map_eq_some_iff.mp hd
      exact ⟨(ofNode_agent ha).1, (ofNode_agent ha).2.1, (ofNode_agent ha).2.2⟩
    · obtain ⟨a, ha, rfl⟩ := Option.map_eq_some_iff.mp hh
      exact ⟨(ofNode_agent ha).1, (ofNode_agent ha).2.1, (ofNode_agent ha).2.2⟩

theorem ofNode_fresh (hh : Host.ofNode lib node = some h) :
    ∃ g, Host.factory lib node = some g ∧ h.Fresh (node.states.filterMap g.icmpState?) := by
  obtain ⟨g, hg, rfl⟩ := Option.map_eq_some_iff.mp hh
  exact ⟨g, hg, setup_fresh (factory_fresh hg) lib node.states⟩

/-! ### Runs -/

/-- In every run of the hosts of a configuration, whatever the queries and routes give, whatever the workers throw and
    whichever packets arrive, each host shows the state of its `<network-host>` for the last result that the controller
    has told of its worker: the first of the document that is for it, or else the predefined one; and none before the
    first result. --/
theorem configured_shown (lib : Libudjat) (pid : Nat) (workers : WorkerId → Icmp.Worker) (nodes : WorkerId → Option HostNode)
    (is : List Hosts.Input) :
    Always Hosts.step (fun m => ∀ w u, m.host w = some u → ∃ node h, nodes w = some node ∧
      Host.factory lib node = some h ∧ u.toAgent.icmpState =
        (m.controller.world.log.flatMap (responsesOf w)).getLast?.bind (h.icmpStateFor node))
      (Hosts.init pid workers fun w => (nodes w).bind (Host.ofNode lib)) is := by
  have hfresh : ∀ w h, (nodes w).bind (Host.ofNode lib) = some h → ∃ node g, nodes w = some node ∧
      Host.factory lib node = some g ∧ h.Fresh (node.states.filterMap g.icmpState?) := fun w h hh => by
    obtain ⟨node, hnode, hh⟩ := Option.bind_eq_some_iff.mp hh
    obtain ⟨g, hg, hfresh⟩ := ofNode_fresh hh
    exact ⟨node, g, hnode, hg, hfresh⟩
  have hnew : ∀ w h, (nodes w).bind (Host.ofNode lib) = some h → h.toAgent.response = .invalid := fun w h hh => by
    obtain ⟨_, _, _, _, hf⟩ := hfresh w h hh
    exact hf.response
  refine (always_informed (informed_init pid workers hnew) is).mono fun m hm w u hu => ?_
  obtain ⟨h, hh, hf⟩ := hm w u hu
  obtain ⟨node, g, hnode, hg, hfresh⟩ := hfresh w h hh
  refine ⟨node, g, hnode, hg, ?_⟩
  have hstates : h.toAgent.stateFor = g.icmpStateFor node := funext fun r => by
    rw [Agent.stateFor, hfresh.icmpStates]
    rfl
  rw [hf.icmpState, hfresh.icmpState, hstates]
  cases (m.controller.world.log.flatMap (responsesOf w)).getLast? <;> rfl

end UdjatNetwork.Ip
