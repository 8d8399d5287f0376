import UdjatNetwork.Support.Machine

/-! # The netlink controller

`NetLink::Controller` (`os/linux/netlink.cc`): the listeners of the agents, and the socket and the input
handler that serve all of them. -/

namespace UdjatNetwork.NetLink

/-- `Controller::Listener`. Objects are known by their addresses, and methods by numbers. -/
structure Listener where
  message : UInt16
  object : Nat
  method : Nat
deriving Repr, DecidableEq

/-- `bound` and `enabled` tell of the socket in `fd` and of the `MainLoop::Handler` base. -/
structure Controller where
  listeners : List Listener := []
  fd : Int := -1
  bound : Bool := false
  enabled : Bool := false
deriving Repr, DecidableEq

/-- The answers of the system to `push_back`: a descriptor, and whether `bind` accepts it. -/
structure PushEnv where
  socket : Option Nat
  bind : Bool
deriving Repr, DecidableEq

namespace Controller

def pushBack (s : Controller) (l : Listener) (env : PushEnv) : Outcome Controller :=
  let s := { s with listeners := s.listeners ++ [l] }
  if s.fd ≠ -1 then .ok s
  else match env.socket with
    | none => .threw { s with fd := -1 }
    | some fd =>
      let s := { s with fd, bound := false }
      if env.bind then .ok { s with bound := true, enabled := true } else .threw s

def remove (s : Controller) (object : Nat) : Controller :=
  let s := { s with listeners := s.listeners.filter (·.object ≠ object) }
  if s.listeners ≠ [] then s else { s with enabled := false, fd := -1, bound := false }

inductive Input where
  | pushBack (l : Listener) (env : PushEnv)
  | remove (object : Nat)
deriving Repr, DecidableEq

/-- One call, under the controller's mutex. -/
def step (s : Controller) : Input → Option Controller
  | .pushBack l env => (s.pushBack l env).state?
  | .remove object => some (s.remove object)

end Controller
end UdjatNetwork.NetLink
