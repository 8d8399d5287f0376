import UdjatNetwork.Dns.Resolver

/-! # The action `wait-for-host` (`WaitForHost` in `module.cc`) -/

namespace UdjatNetwork.Dns

/-- The attributes of the node; `as_uint` gives an `unsigned int`. -/
structure ActionNode where
  host : Option String := none
  timeout : Option UInt32 := none
  interval : Option UInt32 := none
deriving Repr, DecidableEq

/-- The constructor takes no empty name. -/
structure WaitForHost where
  hostname : String
  timeout : Int
  interval : Int
  hostname_ne : hostname ≠ ""
deriving Repr, DecidableEq

/-- What `call` writes to the `Udjat::Response`. -/
structure ActionResponse where
  host : Option String := none
  reachable : Option Int := none
  failed : Bool := false
deriving Repr, DecidableEq

/-- What the system gives: to `res_ninit`, to the first `time`, and to the rounds of the loop. -/
structure WaitEnv where
  init : Bool := true
  start : Int
  rounds : List Round
deriving Repr, DecidableEq

namespace WaitForHost

/-- The constructor; none, when it throws. -/
def ofNode (node : ActionNode) : Option WaitForHost :=
  if h : node.host.getD "" ≠ "" then
    some
      { hostname := node.host.getD ""
        timeout := (node.timeout.getD 120).toNat
        interval := (node.interval.getD 5).toNat
        hostname_ne := h }
  else none

/-- `DNS::Resolver{}.wait(hostname,timeout,interval)`. -/
def wait (a : WaitForHost) (env : WaitEnv) : Ended (Resolver × Int) :=
  if env.init then (({} : Resolver).wait a.hostname a.timeout a.interval env.start env.rounds).2 else .threw

/-- `WaitForHost::call`: what it writes, and what it returns. -/
def call (a : WaitForHost) (response : ActionResponse) (except : Bool) (env : WaitEnv) : ActionResponse × Ended Int :=
  let response := { response with host := some a.hostname }
  match a.wait env with
  | .returned (_, status) => ({ response with reachable := some status }, .returned 0)
  | .threw => ({ response with failed := true }, if except then .threw else .returned (-1))
  | .terminated => (response, .terminated)
  | .undefined => (response, .undefined)
  | .waiting => (response, .waiting)

/-- `WaitForHost::activate`, which is `noexcept`. -/
def activate (a : WaitForHost) (env : WaitEnv) : Ended Bool :=
  match a.wait env with
  | .returned (_, status) => .returned (decide (status = 0))
  | .threw => .terminated
  | .terminated => .terminated
  | .undefined => .undefined
  | .waiting => .waiting

end WaitForHost
end UdjatNetwork.Dns
