import UdjatNetwork.Ip.SubNet

/-! # Subnet states

`Abstract::IP::State`, with its two kinds: `IP::State` for a subnet, and `Internal` of
`IP::State::Factory` for the networks of the machine (`ip/state.cc`). -/

namespace UdjatNetwork.Ip

inductive Kind where
  | subnet
  | internal (revert : Bool)
deriving Repr, DecidableEq

/-- An `Internal` is a `SubNet` too: the one in which it found the last address that it found. -/
structure State where
  level : Level
  kind : Kind
  subnet : SubNet := {}
deriving Repr, DecidableEq

/-- `locals`: the words for the networks of the machine, and whether a state is for addresses outside of them. -/
def locals : List (String × Bool) :=
  [("local", false), ("!remote", false), ("not remote", false), ("internal", false), ("mine", false),
   ("remote", true), ("!local", true), ("not local", true), ("external", true), ("!mine", true),
   ("not mine", true)]

namespace State

/-- `IP::State::Factory`; none, when it throws. -/
def ofNode (lib : Libudjat) (node : StateNode) : Option State :=
  let subnet := node.subnet.getD ""
  match locals.find? fun l => strcasecmp subnet l.1 with
  | some (_, revert) => some { level := node.level, kind := .internal revert }
  | none => (SubNet.set lib subnet).map fun sn => { level := node.level, kind := .subnet, subnet := sn }

/-- `compare` for an IPv4 address, with the interfaces that `getifaddrs` gives, or its failure; no answer,
    when it throws. -/
def compareInet (st : State) (ifaces : Option (List Interface)) (addr : BitVec 32) : State × Option Bool :=
  match st.kind with
  | .subnet => (st, some (st.subnet.contains addr))
  | .internal revert =>
    match ifaces with
    | none => (st, none)
    | some ifaces =>
      match (SubNet.ofInterfaces ifaces).find? (·.contains addr) with
      | some subnet => ({ st with subnet }, some (!revert))
      | none => (st, some revert)

/-- `compare` for an IPv6 address; no subnet supports it. -/
def compareInet6 (st : State) (ifaces : Option (List Interface)) : Option Bool :=
  match st.kind with
  | .subnet => none
  | .internal revert =>
    match ifaces with
    | none => none
    | some ifaces => if (SubNet.ofInterfaces ifaces).isEmpty then some revert else none

def compare (st : State) (ifaces : Option (List Interface)) (addr : Address) : State × Option Bool :=
  match addr with
  | .inet addr => st.compareInet ifaces addr
  | .inet6 _ => (st, st.compareInet6 ifaces)
  | .empty => (st, some st.subnet.addr.isEmpty)
  | .other _ => (st, none)

end State
end UdjatNetwork.Ip
