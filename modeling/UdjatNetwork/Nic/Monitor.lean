import UdjatNetwork.NetLink.Events
import UdjatNetwork.Nic.Agent
import UdjatNetwork.Support.Dispatch

/-! # Agents and their listeners

`Nic::Agent::start` gives the netlink controller two listeners, for links that are added and for links that are removed;
`stop`, which the destructor calls too, takes them back (`os/linux/nicagent.cc`). In between the controller calls them
with the messages that it receives. -/

namespace UdjatNetwork.Nic
open Bytes Machine NetLink Records

/-- `struct ifinfomsg`, in the data of a message: `ifi_index` and `ifi_flags`. -/
def Ifinfomsg.ofBytes (data : List UInt8) : Ifinfomsg where
  index := (BitVec.ofNat 32 (field data 4 4)).toInt
  flags := BitVec.ofNat 32 (field data 8 4)

/-- The bytes of `struct ifinfomsg` up to the end of `ifi_flags`. -/
def ifinfomsgRead : Nat := 12

/-- The listener of an agent for a type of messages; its method is known by that type. -/
def listener (object type : Nat) : Listener where
  message := UInt16.ofNat type
  object := object
  method := type

/-- `listener.method(NLMSG_DATA(h))`, where `name` is what `if_indextoname` gives for an index. -/
def input (l : Listener) (data : List UInt8) (name : Int → Option String) : Agent.Input :=
  let ifi := Ifinfomsg.ofBytes data
  if l.method = RTM_NEWLINK then .newLink ifi (name ifi.index) else .delLink ifi

/-- `NetLink::Controller::getInstance`, and the agents that exist, by their addresses. -/
structure Monitor where
  netlink : Controller := {}
  agents : Nat → Option Agent

namespace Monitor

def store (m : Monitor) (object : Nat) (a : Agent) : Monitor :=
  { m with agents := Function.update m.agents object (some a) }

/-- `Agent::start`; an exception of `refresh` or of `push_back` leaves it. -/
def start (m : Monitor) (object : Nat) (ioctl : Ioctl) (index : Int) (first second : PushEnv) : Option Monitor :=
  (m.agents object).bind fun a =>
    match a.refresh ioctl with
    | (a, none) => some (m.store object a)
    | (a, some _) =>
      let m := m.store object { a with index }
      match m.netlink.pushBack (listener object RTM_NEWLINK) first with
      | .ok netlink =>
        (netlink.pushBack (listener object RTM_DELLINK) second).state?.map fun netlink => { m with netlink }
      | o => o.state?.map fun netlink => { m with netlink }

def stop (m : Monitor) (object : Nat) : Monitor := { m with netlink := m.netlink.remove object }

/-- The calls of methods, in their order, each for the agent that its listener belongs to; undefined, when a method
    would read behind the buffer. `name` is what `if_indextoname` gives while the message at an offset is handled. -/
def mail (r : Received) (name : Nat → Int → Option String) : List Event → Option (List (Nat × Agent.Input))
  | [] => some []
  | .message l off _ :: es =>
    if r.buf.length < off + nlmsghdr.header + ifinfomsgRead then none
    else (mail r name es).map ((l.object, input l (r.buf.drop (off + nlmsghdr.header)) (name off)) :: ·)
  | _ :: es => mail r name es

/-- `handle_event`. An error of `recvmsg`, even where it throws, changes nothing; the methods of the agents do not throw. -/
def receive (m : Monitor) (name : Nat → Int → Option String) : Except Nat Received → Option Monitor
  | .error _ => some m
  | .ok r =>
    match m.netlink.handleEvent (fun _ _ => false) sizeofBuf (.ok r) with
    | (events, some (.ok ())) =>
      (mail r name events).bind fun l => (dispatch Agent.step m.agents l).map fun agents => { m with agents }
    | _ => none

inductive Input where
  | start (object : Nat) (ioctl : Ioctl) (index : Int) (first second : PushEnv)
  | refresh (object : Nat) (ioctl : Ioctl)
  | stop (object : Nat)
  | destroy (object : Nat)
  | receive (name : Nat → Int → Option String) (recv : Except Nat Received)

/-- One step: a call of an agent, which must exist, or an event of the main loop. -/
def step (m : Monitor) : Input → Option Monitor
  | .start object ioctl index first second => m.start object ioctl index first second
  | .refresh object ioctl => (m.agents object).map fun a => m.store object (a.refresh ioctl).1
  | .stop object => (m.agents object).map fun _ => m.stop object
  | .destroy object => (m.agents object).map fun _ =>
      { m.stop object with agents := Function.update m.agents object none }
  | .receive name recv => m.receive name recv

/-- Agents whose constructors have run, and the controller before its first call. -/
def init (agents : Nat → Option Agent) : Monitor where
  agents := agents

end Monitor
end UdjatNetwork.Nic
