import UdjatNetwork.Udjat
import Mathlib.Data.BitVec

/-! # The agent of a network interface

`Nic::Agent` (`os/linux/nicagent.cc`) and the states for its flags (`os/linux/nicstate.cc`). -/

namespace UdjatNetwork.Nic

structure Agent where
  name : String
  index : Int := 0
  netlink : Bool := false
  exist : Bool := false
  flags : BitVec 32 := 0
deriving Repr, DecidableEq

/-- What `socket` and the ioctl `SIOCGIFFLAGS` of `refresh` give; `flags` is the `ifr_flags` of the answer,
    a signed short. -/
inductive Ioctl where
  | noSocket
  | error (errno : Nat)
  | flags (f : BitVec 16)
deriving Repr, DecidableEq

structure Ifinfomsg where
  index : Int
  flags : BitVec 32
deriving Repr, DecidableEq

namespace Agent

/-- `Agent::refresh`; no answer, when it throws. `ifr_ifindex` lies in the memory of `ifr_flags`, in a
    structure that was zero before. -/
def refresh (a : Agent) : Ioctl → Agent × Option Bool
  | .noSocket => (a, none)
  | .error _ =>
    ({ a with flags := 0, exist := false, index := -1 },
      some (decide (a.flags ≠ 0) || decide (a.index ≠ -1) || a.exist))
  | .flags f =>
    let flags := f.signExtend 32
    let index : Int := f.toNat
    ({ a with flags, index, exist := true },
      some (decide (a.flags ≠ flags) || decide (a.index ≠ index) || !a.exist))

/-- `Agent::start`, which gets its index from `if_nametoindex`; the messages are inputs of their own. -/
def start (a : Agent) (ioctl : Ioctl) (index : Int) : Agent :=
  match a.refresh ioctl with
  | (a, none) => a
  | (a, some _) => { a with index }

/-- The listener for `RTM_NEWLINK`, and whether it pushes an update; `name` is what `if_indextoname` gives
    for the index of the message. -/
def newLink (a : Agent) (ifi : Ifinfomsg) (name : Option String) : Agent × Bool :=
  if name ≠ some a.name then (a, false)
  else
    let a := { a with index := ifi.index }
    if a.flags ≠ ifi.flags then ({ a with flags := ifi.flags, netlink := true }, true) else (a, false)

/-- The listener for `RTM_DELLINK`, and whether it pushes an update. -/
def delLink (a : Agent) (ifi : Ifinfomsg) : Agent × Bool :=
  if a.index ≠ ifi.index then (a, false)
  else if a.flags ≠ ifi.flags ∨ a.netlink then ({ a with flags := ifi.flags, netlink := false }, true)
  else (a, false)

inductive Input where
  | start (ioctl : Ioctl) (index : Int)
  | refresh (ioctl : Ioctl)
  | newLink (ifi : Ifinfomsg) (name : Option String)
  | delLink (ifi : Ifinfomsg)
deriving Repr, DecidableEq

def step (a : Agent) : Input → Option Agent
  | .start ioctl index => some (a.start ioctl index)
  | .refresh ioctl => some (a.refresh ioctl).1
  | .newLink ifi name => some (a.newLink ifi name).1
  | .delLink ifi => some (a.delLink ifi).1

end Agent

/-! ## States -/

structure FlagState where
  flag : BitVec 32
  active : String
  inactive : String
deriving Repr, DecidableEq

/-- `flagstates`, with the values of `net/if.h`. -/
def flagstates : List FlagState :=
  [⟨0x1, "up", "down"⟩, ⟨0x40, "running", "not-running"⟩, ⟨0x100, "promisc", "not-promisc"⟩,
   ⟨0x10, "p2p", "not-p2p"⟩, ⟨0x80, "no-arp", "arp"⟩, ⟨0x1000, "multicast", "no-multicast"⟩]

/-- `Nic::State`: `StateActive`, `StateInactive` and `StateExistant`. -/
inductive State where
  | active (flags : BitVec 32)
  | inactive (flags : BitVec 32)
  | existant (revert : Bool)
deriving Repr, DecidableEq

/-- `compare`; `exist()` of the agent returns `intf.netlink`, the field `intf.exist` is another one. -/
def State.compare (a : Agent) : State → Bool
  | active f => a.netlink && (decide (a.flags ≠ 0) && decide (a.flags &&& f ≠ 0))
  | inactive f => a.netlink && (decide (a.flags ≠ 0) && !decide (a.flags &&& f ≠ 0))
  | existant revert => if revert then !a.exist else a.exist

/-- `Nic::State::Factory`, for the value of `device-state`, or of `name` where that one is missing; none,
    when it throws. -/
def State.factory (state : String) : Option State :=
  let flag := flagstates.findSome? fun fs =>
    if strcasecmp state fs.active then some (State.active fs.flag)
    else if strcasecmp state fs.inactive then some (State.inactive fs.flag)
    else none
  if flag.isSome then flag
  else if strcasecmp state "found" then some (.existant false)
  else if strcasecmp state "not-found" then some (.existant true)
  else none

theorem State.factory_congr {m n : String} (h : strcasecmp m n) : State.factory m = State.factory n := by
  rw [State.factory, State.factory, strcasecmp_congr h]

theorem State.factory_active : ∀ fs ∈ flagstates, State.factory fs.active = some (.active fs.flag) := by decide

theorem State.factory_inactive : ∀ fs ∈ flagstates, State.factory fs.inactive = some (.inactive fs.flag) := by
  decide

end UdjatNetwork.Nic
