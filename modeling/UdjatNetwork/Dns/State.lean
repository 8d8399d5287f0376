import UdjatNetwork.Dns.Resolver

/-! # `DNS::State` (`dns/linux/state.cc`) -/

namespace UdjatNetwork.Dns

/-- A state of the XML definition, or one for a code. `code` is the value of its `State<int>` base. -/
structure State where
  name : String
  level : Level
  code : Int
deriving Repr, DecidableEq

/-- `compare` of the `State<int>` base. -/
def State.compare (st : State) (code : Int) : Bool := decide (code = st.code)

def dnsstates : List (Int × String) :=
  [(-1, "invalid"), (HOST_NOT_FOUND, "host-not-found"), (TRY_AGAIN, "try-again"), (NO_RECOVERY, "failed"),
   (NO_DATA, "no-data"), (NETDB_SUCCESS, "resolved")]

/-- `State::Factory` for a node; none, when it throws. -/
def State.ofNode (node : StateNode) : Option State :=
  let name := node.dnsState.getD ""
  if name = "" then none
  else (dnsstates.find? fun st => strcasecmp name st.2).map fun st =>
    { name := node.name, level := node.level, code := st.1 }

/-- `State::Factory` for a code: a `KnownState` or a `DNS::State`, both with the level that the constructor
    of `DNS::State` gives. -/
def State.factory (code : Int) : State :=
  { name := ((dnsstates.find? fun st => st.1 == code).map (·.2)).getD "nssdb"
    level := if code = NETDB_SUCCESS then .ready else .error
    code }

end UdjatNetwork.Dns
