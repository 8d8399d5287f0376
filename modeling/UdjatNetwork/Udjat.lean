import Mathlib.Init

/-! # What the network library takes from libudjat and the system headers -/

namespace UdjatNetwork

/-- An `IP::Address`: a `sockaddr_storage`, by its address family. A zeroed one has family 0. -/
inductive Address where
  | empty
  /-- `AF_INET`, with `sin_addr.s_addr` as the machine reads it from memory. -/
  | inet (addr : BitVec 32)
  | inet6 (addr : BitVec 128)
  | other (family : UInt16)
deriving Repr, DecidableEq

def Address.isEmpty : Address → Bool
  | .empty => true
  | _ => false

theorem Address.isEmpty_iff {a : Address} : a.isEmpty = true ↔ a = .empty := by
  cases a <;> simp [isEmpty]

inductive Level where
  | undefined
  | unimportant
  | ready
  | warning
  | error
  | critical
deriving Repr, DecidableEq

/-- The value of the level; states compare by it. -/
def Level.value : Level → Nat
  | undefined => 0
  | unimportant => 1
  | ready => 2
  | warning => 3
  | error => 4
  | critical => 5

def lower (s : String) : List Char := s.toList.map Char.toLower

/-- Whether `strcasecmp` finds no difference. -/
def strcasecmp (a b : String) : Bool := lower a == lower b

theorem strcasecmp_congr {m n : String} (h : strcasecmp m n) : strcasecmp m = strcasecmp n := by
  have hlower : lower m = lower n := by simpa [strcasecmp] using h
  exact funext fun k => by rw [strcasecmp, strcasecmp, hlower]

/-- The attributes that are read of a `<state>`; `level` is what libudjat makes of its own ones. -/
structure StateNode where
  name : String := ""
  level : Level := .unimportant
  dnsState : Option String := none
  icmpResponse : Option String := none
  subnet : Option String := none
deriving Repr, DecidableEq

/-- The attributes that are read of a `<network-host>`, with its states in the order of the document; `icmp` is what
    `getAttribute` makes of it. -/
structure HostNode where
  type : Option String := none
  hostname : Option String := none
  ip : Option String := none
  dns : Option String := none
  icmp : Option Bool := none
  states : List StateNode := []
deriving Repr, DecidableEq

/-- What the agents ask of libudjat: the address in a text, if `IP::Address::set` accepts it; whether `select`
    takes a text for a word; and whether `Abstract::Agent::StateFactory` accepts a state. -/
structure Libudjat where
  address : String → Option Address
  select : String → String → Bool
  stateFactory : StateNode → Bool

/-- `String::select`: the index of the word that it takes the text for. -/
def Libudjat.selectIndex (lib : Libudjat) (text : String) (words : List String) : Option Nat :=
  words.findIdx? (lib.select text)

/-- `struct timespec`, as `clock_gettime` fills it. -/
structure Timespec where
  sec : Nat := 0
  nsec : Nat := 0
deriving Repr, DecidableEq

def ENETUNREACH : Nat := 101

end UdjatNetwork
