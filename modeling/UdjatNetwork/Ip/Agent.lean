import UdjatNetwork.Icmp.State
import UdjatNetwork.Ip.State
import UdjatNetwork.Support.Machine

/-! # `IP::Agent` (`ip/agent.cc`) -/

namespace UdjatNetwork.Ip

/-- `IP::Agent`, the fields of its `icmp` and `ip`, and what it has of its `ICMP::Worker` base. `updates`
    counts the calls of `updated(true)`. -/
structure Agent where
  address : Address := .empty
  running : Bool := false
  check : Bool := true
  response : Icmp.Response := .invalid
  icmpStates : List Icmp.State := []
  icmpState : Option Icmp.State := none
  ipStates : List State := []
  ipState : Option State := none
  updates : Nat := 0
deriving Repr, DecidableEq

/-- What `computeState` returns: the state of the base class, or one of the agent. -/
inductive Computed where
  | base (level : Level)
  | ip (st : State)
  | icmp (st : Icmp.State)
deriving Repr, DecidableEq

def Computed.level : Computed → Level
  | base level => level
  | ip st => st.level
  | icmp st => st.level

/-- The state that `computeState` chooses: a later one must have a higher level. -/
def Computed.max (state : Computed) (other : Option Computed) : Computed :=
  match other with
  | some other => if other.level.value > state.level.value then other else state
  | none => state

namespace Agent

/-- The constructor for a node, with the one of its `ICMP::Worker` base; none, when it throws. -/
def ofNode (lib : Libudjat) (node : HostNode) : Option Agent :=
  match node.ip with
  | some ip => (lib.address ip).map fun address => { address, check := node.icmp.getD true }
  | none => some { check := node.icmp.getD true }

/-- `Agent::StateFactory`; none, when it throws. -/
def stateFactory (lib : Libudjat) (a : Agent) (node : StateNode) : Option Agent :=
  if node.icmpResponse.isSome then (Icmp.State.ofNode node).map fun st => { a with icmpStates := a.icmpStates ++ [st] }
  else if node.subnet.isSome then (State.ofNode lib node).map fun st => { a with ipStates := a.ipStates ++ [st] }
  else if lib.stateFactory node then some a
  else none

def set (a : Agent) (response : Icmp.Response) (_source : Address) : Agent :=
  if response = a.response then a
  else match a.icmpStates.find? (·.id = response) with
    | some st => { a with icmpState := some st, updates := a.updates + 1 }
    | none =>
      match Icmp.State.factory response with
      | some st => { a with icmpState := some st, updates := a.updates + 1 }
      | none => a

/-- `Agent::refresh`, which returns false; `start` tells whether `ICMP::Worker::start` gets through. -/
def refresh (a : Agent) (start : Bool) : Outcome Agent :=
  if a.address.isEmpty then
    match a.ipState with
    | some _ => .ok ({ a with ipState := none }.set .invalid a.address)
    | none => .ok a
  else if a.check && !a.running then
    if start then .ok { a with running := true } else .threw a
  else .ok a

/-- The loop of `computeState` over the subnet states: the states after it, and the first one that matches;
    no answer, when a comparison throws. -/
def findSubnet (ifaces : Option (List Interface)) (addr : Address) :
    List State → List State × Option (Option State)
  | [] => ([], some none)
  | st :: sts =>
    match st.compare ifaces addr with
    | (st, some true) => (st :: sts, some (some st))
    | (st, some false) => (st :: (findSubnet ifaces addr sts).1, (findSubnet ifaces addr sts).2)
    | (st, none) => (st :: sts, none)

/-- `Agent::computeState`, with the level of the state that the base class computes, and the interfaces of
    the machine; no answer, when it throws. -/
def computeState (a : Agent) (base : Level) (ifaces : Option (List Interface)) : Agent × Option Computed :=
  match findSubnet ifaces a.address a.ipStates with
  | (ipStates, none) => ({ a with ipStates, ipState := none }, none)
  | (ipStates, some ipState) =>
    let state := Computed.max (.base base) (ipState.map .ip)
    ({ a with ipStates, ipState }, some (Computed.max state (a.icmpState.map .icmp)))

/-- The controller reports a result, and takes the worker out of its list. -/
def result (a : Agent) (response : Icmp.Response) (source : Address) : Agent :=
  { a.set response source with running := false }

inductive Input where
  | refresh (start : Bool)
  | result (response : Icmp.Response) (source : Address)
  | computeState (base : Level) (ifaces : Option (List Interface))
  | address (addr : Address)

/-- One step; only a running worker gets a result, and the owner may set the address. -/
def step (a : Agent) : Input → Option Agent
  | .refresh start => (a.refresh start).state?
  | .result response source => if a.running then some (a.result response source) else none
  | .computeState base ifaces => some (a.computeState base ifaces).1
  | .address addr => some { a with address := addr }

end Agent
end UdjatNetwork.Ip
