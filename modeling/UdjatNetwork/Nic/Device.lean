import UdjatNetwork.Nic.Agent

/-! # Agents from a configuration

`Nic::Agent::Factory` (`nic/factory.cc`), and what an agent does with the states of its node (`nic/agent.cc`). -/

namespace UdjatNetwork.Nic

/-- The attributes that are read of a `<state>` of a network interface; `level` is what libudjat makes of its own ones. -/
structure StateNode where
  name : String := ""
  level : Level := .unimportant
  deviceState : Option String := none
deriving Repr, DecidableEq

/-- The attributes that are read of a `<network-interface>`, with its states in the order of the document; a `device-name`
    that is missing is empty. -/
structure InterfaceNode where
  deviceName : String := ""
  autoDetect : Bool := false
  states : List StateNode := []
deriving Repr, DecidableEq

/-- `Nic::State::Factory`, for a node. -/
def State.ofNode (node : StateNode) : Option State :=
  let state := node.deviceState.getD node.name
  if state.isEmpty then none else State.factory state

/-- A `Nic::State`: what `Abstract::State` takes from its node, and its `compare`. -/
structure DeviceState where
  node : StateNode
  state : State
deriving Repr, DecidableEq

/-- An agent as it was made, with its states. -/
structure Device where
  agent : Agent
  states : List DeviceState := []
deriving Repr, DecidableEq

namespace Device

/-- `NameFactory`. -/
def nameFactory (node : InterfaceNode) (name : String) : String := if name.isEmpty then node.deviceName else name

/-- The constructor of `Nic::Agent`. -/
def ofNode (node : InterfaceNode) (name : String) : Device where
  agent := { name := nameFactory node name }

/-- `Nic::Agent::StateFactory`; none, when it throws. -/
def stateFactory (d : Device) (node : StateNode) : Option Device :=
  (State.ofNode node).map fun state => { d with states := d.states ++ [⟨node, state⟩] }

/-- The agent takes its states, in the order of the document; one that throws is left out. -/
def setup (d : Device) (nodes : List StateNode) : Device :=
  nodes.foldl (fun d node => (d.stateFactory node).getD d) d

/-- `Nic::Agent::computeState`, where `a` is the agent by then; without an answer, libudjat computes the state. -/
def computeState (d : Device) (a : Agent) : Option DeviceState := d.states.find? (·.state.compare a)

end Device

/-- The agent for a `<network-interface>`. -/
inductive Interface where
  | agent (d : Device)
  | list
  | autoDetect (d : Device) (agents : List Device)
deriving Repr, DecidableEq

/-- `Nic::Agent::Factory`, where `interfaces` are the names that `Network::Interface::for_each` gives; none, when it
    throws. -/
def Interface.factory (node : InterfaceNode) (interfaces : List String) : Option Interface :=
  if node.deviceName.isEmpty then none
  else if strcasecmp node.deviceName "*" || strcasecmp node.deviceName "all" then
    if node.autoDetect then some (.autoDetect (.ofNode node "") (interfaces.map (.ofNode node)))
    else some .list
  else some (.agent (.ofNode node ""))

end UdjatNetwork.Nic
