import UdjatNetwork.Dns.State
import UdjatNetwork.Ip.Agent

/-! # `DNS::Agent` (`dns/agent.cc`) -/

namespace UdjatNetwork.Dns

structure Agent extends Ip.Agent where
  serverName : Option String := none
  serverIp : Address := .empty
  hostname : String := ""
  dnsStates : List State := []
  dnsState : Option State := none
deriving Repr, DecidableEq

/-- What the system gives in one `refresh`: to `res_ninit` and `res_nquery`, for the name of the server and
    for that of the host, and to `ICMP::Worker::start`. -/
structure RefreshEnv where
  serverInit : Bool := true
  serverAnswer : Answer := .failed HOST_NOT_FOUND
  init : Bool := true
  answer : Answer
  start : Bool := true
deriving Repr, DecidableEq

/-- The constructors of `Resolver`. Its `set` returns for an empty address, and for any other it ends in a
    `throw`. -/
def connect (init : Bool) (server : Address) : Except Error Unit :=
  if !init then .error .other
  else if server.isEmpty then .ok ()
  else .error .other

namespace Agent

/-- The constructor for a node; none, when it throws. -/
def ofNode (lib : Libudjat) (node : HostNode) : Option Agent :=
  (Ip.Agent.ofNode lib node).map fun a =>
    { a with serverName := some (node.dns.getD ""), hostname := node.hostname.getD "" }

/-- `Agent::StateFactory`; none, when it throws. -/
def stateFactory (lib : Libudjat) (a : Agent) (node : StateNode) : Option Agent :=
  if node.dnsState.isSome then (State.ofNode node).map fun st => { a with dnsStates := a.dnsStates ++ [st] }
  else (a.toAgent.stateFactory lib node).map fun ip => { a with toAgent := ip }

/-- `Agent::set`, and whether the state has changed. -/
def set (a : Agent) (code : Int) : Agent × Bool :=
  if a.dnsState.any (·.compare code) then (a, false)
  else match a.dnsStates.find? (·.compare code) with
    | some st => ({ a with dnsState := some st }, true)
    | none => ({ a with dnsState := some (State.factory code) }, true)

/-- The first block of `refresh`, for the name of a server without address. With an empty answer it reads
    the first of no records, which has no result. -/
def resolveServer (a : Agent) (env : RefreshEnv) : Except Error (Option Agent) :=
  if a.serverName.getD "" ≠ "" ∧ a.serverIp.isEmpty then
    ((connect env.serverInit .empty).bind fun _ => query (a.serverName.getD "") env.serverAnswer).map fun
      | [] => none
      | r :: _ => some { a with serverIp := r.addr }
  else .ok (some a)

/-- The block for the host, with and without a server of its own. -/
def resolveHost (a : Agent) (env : RefreshEnv) : Except Error (Option Agent) :=
  ((connect env.init a.serverIp).bind fun _ => query a.hostname env.answer).map fun
    | [] => none
    | r :: _ => some { a with address := r.addr }

/-- The handlers of `refresh`: what it does, and what it returns. -/
def caught (a : Agent) (e : Error) : Outcome Agent × Bool :=
  let a := { a with serverIp := .empty, address := .empty }
  match e with
  | .dns code => (.ok (a.set code).1, (a.set code).2)
  | .other => (.threw a, false)

/-- `IP::Agent::refresh`, for this agent. -/
def refreshIp (a : Agent) (start : Bool) : Outcome Agent :=
  match a.toAgent.refresh start with
  | .ok ip => .ok { a with toAgent := ip }
  | .threw ip => .threw { a with toAgent := ip }
  | .undefined => .undefined

/-- `Agent::refresh`: what it does, and what it returns. -/
def refresh (a : Agent) (env : RefreshEnv) : Outcome Agent × Bool :=
  match a.resolveServer env with
  | .error e => a.caught e
  | .ok none => (.undefined, false)
  | .ok (some a) =>
    match a.resolveHost env with
    | .error e => a.caught e
    | .ok none => (.undefined, false)
    | .ok (some a) => ((a.set NETDB_SUCCESS).1.refreshIp env.start, false)

def computeState (a : Agent) (base : Level) (ifaces : Option (List Ip.Interface)) :
    Agent × Option (Ip.Computed ⊕ State) :=
  match a.toAgent.computeState base ifaces with
  | (ip, none) => ({ a with toAgent := ip }, none)
  | (ip, some state) =>
    let a := { a with toAgent := ip }
    match a.dnsState with
    | some st => (a, some (if st.level.value > state.level.value then .inr st else .inl state))
    | none => (a, some (.inl state))

inductive Input where
  | refresh (env : RefreshEnv)
  | result (response : Icmp.Response) (source : Address)
  | computeState (base : Level) (ifaces : Option (List Ip.Interface))
  | address (addr : Address)

def step (a : Agent) : Input → Option Agent
  | .refresh env => (a.refresh env).1.state?
  | .result response source =>
    if a.running then some { a with toAgent := a.toAgent.result response source } else none
  | .computeState base ifaces => some (a.computeState base ifaces).1
  | .address addr => some { a with address := addr }

end Agent
end UdjatNetwork.Dns
