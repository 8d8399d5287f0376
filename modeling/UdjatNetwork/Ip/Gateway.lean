import UdjatNetwork.Ip.Agent
import UdjatNetwork.NetLink.Message

/-! # `IP::Gateway` (`os/linux/defaultgateway.cc`, `defaultgateway.cc`) -/

namespace UdjatNetwork.Ip
open Bytes NetLink

structure Gateway extends Agent where
  intf : String := ""
deriving Repr, DecidableEq

/-- The header of a message, as `detect` fills it for its request. -/
structure Request where
  len : Nat := rtmsgLength
  type : Nat := RTM_GETROUTE
  flags : Nat := NLM_F_DUMP ||| NLM_F_REQUEST
  seq : Nat := 0

/-- What the system gives to `detect`: to `socket`, `send`, and to each `recv`, a datagram or an error;
    `ifname` is the name that `if_indextoname` leaves for an index. -/
structure DetectEnv where
  socket : Bool := true
  send : Bool := true
  recvs : List (Option (List UInt8))
  ifname : Nat → String

/-- What `detect` has found so far. -/
structure Found where
  gateway : Address := .empty
  intf : String
deriving Repr, DecidableEq

namespace Gateway

/-- The constructor for a node; none, when it throws. -/
def ofNode (lib : Libudjat) (node : HostNode) : Option Gateway :=
  (Agent.ofNode lib node).map fun a => { a with intf := "" }

def bufferSize : Nat := 4096

/-- The loop of `detect` that receives, with `msgLen` bytes of the buffer in use; the checks are made on the
    header of the request. The bytes of the last datagram are left to parse; none, when it throws. -/
def receive (request : Request) : Nat → List (Option (List UInt8)) → Option (List UInt8)
  | _, [] => none
  | _, none :: _ => none
  | msgLen, some datagram :: recvs =>
    let received := datagram.take (bufferSize - msgLen)
    if ¬ (nlmsghdr.header ≤ received.length ∧ nlmsghdr.header ≤ request.len ∧ request.len ≤ received.length) ∨
        request.type = NLMSG_ERROR then none
    else if field received 4 2 = NLMSG_DONE then some received
    else if request.flags &&& NLM_F_MULTI = 0 then some received
    else if request.seq ≠ 1 then receive request (msgLen + received.length) recvs
    else some received

/-- The loop over the attributes: an attribute, and the number of bytes from it to the end of the message.
    With an exception goes what was found until then. -/
def routeAttribute (ifname : Nat → String) (f : Found) (v : List UInt8 × Nat) : Except Found Found :=
  if field v.1 2 2 = RTA_OIF then .ok { f with intf := ifname (field v.1 4 4) }
  else if field v.1 2 2 = RTA_GATEWAY then
    if v.2 > 16 then .error f
    else .ok { f with gateway := .inet (BitVec.ofNat 32 (field v.1 4 4)) }
  else .ok f

/-- The loop over the messages. One that is too short for its `rtmsg` has no attributes, so it does not matter
    what is read for its table. -/
def routeEntry (ifname : Nat → String) (f : Found) (v : List UInt8 × Nat) : Except Found Found :=
  if field v.1 20 1 ≠ RT_TABLE_MAIN then .ok f
  else (rtattr.walk (v.1.drop rtmsgLength) (nlmsghdr.size v.1 - rtmsgLength)).foldlM (routeAttribute ifname) f

/-- `Gateway::detect`: what it does, and whether the address was changed. -/
def detect (g : Gateway) (env : DetectEnv) : Outcome Gateway × Bool :=
  if !env.socket || !env.send then (.threw g, false)
  else match receive {} 0 env.recvs with
    | none => (.threw g, false)
    | some received =>
      match (nlmsghdr.walk received received.length).foldlM (routeEntry env.ifname) { intf := g.intf } with
      | .error f => (.threw { g with intf := f.intf }, false)
      | .ok f =>
        if f.gateway ≠ g.address then (.ok { g with intf := f.intf, address := f.gateway }, true)
        else (.ok { g with intf := f.intf }, false)

/-- `IP::Agent::refresh`, for this agent. -/
def refreshIp (g : Gateway) (start : Bool) : Outcome Gateway :=
  match g.toAgent.refresh start with
  | .ok ip => .ok { g with toAgent := ip }
  | .threw ip => .threw { g with toAgent := ip }
  | .undefined => .undefined

/-- `Gateway::refresh`: what it does, and what it returns. -/
def refresh (g : Gateway) (env : DetectEnv) (start : Bool) : Outcome Gateway × Bool :=
  match g.detect env with
  | (.ok g, changed) => (g.refreshIp start, changed)
  | o => o

inductive Input where
  | refresh (env : DetectEnv) (start : Bool)
  | result (response : Icmp.Response) (source : Address)
  | computeState (base : Level) (ifaces : Option (List Interface))
  | address (addr : Address)

def step (g : Gateway) : Input → Option Gateway
  | .refresh env start => (g.refresh env start).1.state?
  | .result response source =>
    if g.running then some { g with toAgent := g.toAgent.result response source } else none
  | .computeState base ifaces => some { g with toAgent := (g.toAgent.computeState base ifaces).1 }
  | .address addr => some { g with address := addr }

end Gateway
end UdjatNetwork.Ip
