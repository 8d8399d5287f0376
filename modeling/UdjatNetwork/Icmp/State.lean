import UdjatNetwork.Icmp.Response

/-! # `ICMP::State` (`icmp/state.cc`) -/

namespace UdjatNetwork.Icmp

/-- A state of the XML definition, or a predefined one. -/
structure State where
  name : String
  level : Level
  id : Response
deriving Repr, DecidableEq

def icmpStates : List State :=
  [⟨"invalid", .error, .invalid⟩, ⟨"echo-reply", .ready, .echoReply⟩,
   ⟨"destination-unreachable", .error, .destinationUnreachable⟩, ⟨"time-exceeded", .error, .timeExceeded⟩,
   ⟨"timeout", .error, .timeout⟩, ⟨"network-unreachable", .error, .networkUnreachable⟩]

/-- `State::Factory` for a response; none, when it throws. -/
def State.factory (id : Response) : Option State := icmpStates.find? (·.id = id)

/-- `State::Factory` for a node; none, when it throws. -/
def State.ofNode (node : StateNode) : Option State :=
  (responseFactory (node.icmpResponse.getD "")).bind fun id =>
    (icmpStates.find? (·.id = id)).map fun st => { name := node.name, level := node.level, id := st.id }

theorem State.factory_id : ∀ id : Response, ∃ st, State.factory id = some st ∧ st.id = id := by
  intro id
  cases id <;> exact ⟨_, rfl, rfl⟩

end UdjatNetwork.Icmp
