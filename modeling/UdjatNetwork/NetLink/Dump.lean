import UdjatNetwork.NetLink.Message

/-! # Dumps of a routing table

The answer to a request for the IPv4 routes: a message for each route, with its attributes, and perhaps the
message that ends the dump. -/

namespace UdjatNetwork.NetLink
open Bytes Records Layout

/-- An attribute of a route: its interface, its gateway, or one that is neither. -/
inductive Attr where
  | oif (index : BitVec 32)
  | gateway (addr : BitVec 32)
  | other (type : UInt16) (data : List UInt8) (htype : type.toNat ≠ RTA_OIF ∧ type.toNat ≠ RTA_GATEWAY)
    (hdata : data.length < 65532)

namespace Attr

def type : Attr → Nat
  | oif _ => RTA_OIF
  | gateway _ => RTA_GATEWAY
  | other type _ _ _ => type.toNat

def data : Attr → List UInt8
  | oif index => toLE 4 index.toNat
  | gateway addr => toLE 4 addr.toNat
  | other _ data _ _ => data

def oif? : Attr → Option (BitVec 32)
  | oif index => some index
  | _ => none

def gateway? : Attr → Option (BitVec 32)
  | gateway addr => some addr
  | _ => none

theorem length_data (a : Attr) : a.data.length < 65532 := by
  cases a with
  | oif | gateway => simp [data]
  | other type data htype hdata => exact hdata

def record (a : Attr) : rtattr.Record where
  bytes := toLE 2 (4 + a.data.length) ++ (toLE 2 a.type ++ a.data)
  header_le := by simp [rtattr]; omega
  size_eq := by
    have := a.length_data
    change field (toLE 2 (4 + a.data.length) ++ _) 0 2 = _
    rw [field_append_left (by simp), field_toLE]
    simp
    omega

end Attr

/-- An IPv4 route, with at most one gateway and one interface. -/
structure Route where
  table : UInt8
  dstLen : UInt8
  attrs : List Attr
  srcLen : UInt8 := 0
  tos : UInt8 := 0
  protocol : UInt8 := 0
  scope : UInt8 := 0
  type : UInt8 := 0
  flags : UInt32 := 0
  one_gateway : (attrs.filterMap Attr.gateway?).length ≤ 1
  one_oif : (attrs.filterMap Attr.oif?).length ≤ 1
  length_lt : rtmsgLength + (concat Attr.record attrs).length < 4294967296

namespace Route

def gateway? (r : Route) : Option (BitVec 32) := (r.attrs.filterMap Attr.gateway?).head?

def oif? (r : Route) : Option (BitVec 32) := (r.attrs.filterMap Attr.oif?).head?

/-- `struct rtmsg`, of the family `AF_INET`. -/
def rtmsg (r : Route) : List UInt8 :=
  [2, r.dstLen, r.srcLen, r.tos, r.table, r.protocol, r.scope, r.type] ++ toLE 4 r.flags.toNat

/-- A default route: one of the main table, for every destination, with a gateway. -/
def IsDefault (r : Route) : Prop := r.table.toNat = RT_TABLE_MAIN ∧ r.dstLen = 0 ∧ r.gateway? ≠ none

instance (r : Route) : Decidable r.IsDefault := inferInstanceAs (Decidable (_ ∧ _ ∧ _))

end Route

/-- `struct nlmsghdr`, of a message of a dump. -/
def header (len type : Nat) (seq pid : UInt32) : List UInt8 :=
  toLE 4 len ++ toLE 2 type ++ toLE 2 NLM_F_MULTI ++ toLE 4 seq.toNat ++ toLE 4 pid.toNat

@[simp] theorem length_header (len type : Nat) (seq pid : UInt32) : (header len type seq pid).length = 16 := by
  simp [header]

theorem size_header (len type : Nat) (seq pid : UInt32) (bs : List UInt8) (h : len < 4294967296) :
    nlmsghdr.size (header len type seq pid ++ bs) = len := by
  change field (header len type seq pid ++ bs) 0 4 = len
  rw [field_append_left (by simp), header]
  simp only [List.append_assoc]
  rw [field_append_left (by simp), field_toLE]
  exact Nat.mod_eq_of_lt h

inductive Message where
  | route (r : Route)
  | done

def Message.record (seq pid : UInt32) : Message → nlmsghdr.Record
  | route r =>
    { bytes := header (rtmsgLength + (concat Attr.record r.attrs).length) RTM_NEWROUTE seq pid ++
        (r.rtmsg ++ concat Attr.record r.attrs)
      header_le := by simp [nlmsghdr]
      size_eq := by
        rw [size_header _ _ _ _ _ r.length_lt]
        simp [Route.rtmsg, rtmsgLength]
        omega }
  | done =>
    { bytes := header 20 NLMSG_DONE seq pid ++ toLE 4 0
      header_le := by simp [nlmsghdr]
      size_eq := by
        rw [size_header _ _ _ _ _ (by decide)]
        simp }

/-- A dump, with or without the message that ends it. -/
structure Dump where
  seq : UInt32 := 0
  pid : UInt32 := 0
  routes : List Route
  done : Bool := false

namespace Dump

def messages (d : Dump) : List Message := d.routes.map .route ++ if d.done then [.done] else []

def bytes (d : Dump) : List UInt8 := concat (Message.record d.seq d.pid) d.messages

def defaults (d : Dump) : List Route := d.routes.filter fun r => r.IsDefault

end Dump
end UdjatNetwork.NetLink
