import UdjatNetwork.Udjat
import Mathlib.Tactic.SplitIfs

/-! # `IP::SubNet` (`ip/subnet.cc`, `os/linux/subnet.cc`) -/

namespace UdjatNetwork.Ip

/-- `htonl` on a little-endian machine. -/
def htonl (x : BitVec 32) : BitVec 32 :=
  x.extractLsb' 0 8 ++ x.extractLsb' 8 8 ++ x.extractLsb' 16 8 ++ x.extractLsb' 24 8

theorem getLsbD_htonl (x : BitVec 32) {i : Nat} (hi : i < 32) :
    (htonl x).getLsbD i = x.getLsbD (24 - i / 8 * 8 + i % 8) := by
  change (x.extractLsb' 0 8 ++ x.extractLsb' 8 8 ++ x.extractLsb' 16 8 ++ x.extractLsb' 24 8 :
    BitVec (8 + 8 + 8 + 8)).getLsbD i = _
  simp only [BitVec.getLsbD_append, BitVec.getLsbD_extractLsb']
  split_ifs <;> rw [decide_eq_true (by omega), Bool.true_and] <;> congr 1 <;> omega

@[simp] theorem htonl_htonl (x : BitVec 32) : htonl (htonl x) = x := by
  refine BitVec.eq_of_getLsbD_eq fun i hi => ?_
  rw [getLsbD_htonl _ hi, getLsbD_htonl _ (by omega)]
  congr 1
  omega

structure SubNet where
  addr : Address := .empty
  bits : Nat := 0
deriving Repr, DecidableEq

def isspace (c : Char) : Bool := c = ' ' || ('\t' ≤ c && c ≤ '\r')

/-- `std::stoi`: the number that a text begins with, behind white space; none, when it throws. -/
def stoi (text : List Char) : Option Int :=
  let text := text.dropWhile isspace
  let negative := text.head? = some '-'
  let digits := (if negative ∨ text.head? = some '+' then text.tail else text).takeWhile Char.isDigit
  let number := digits.foldl (fun n c => 10 * n + (c.toNat - '0'.toNat)) 0
  let value : Int := if negative then -number else number
  if digits = [] ∨ value < -2147483648 ∨ 2147483647 < value then none else some value

/-- `SubNet::set`; none, when it throws. `bits` is an `unsigned int`. -/
def SubNet.set (lib : Libudjat) (subnet : String) : Option SubNet :=
  match subnet.toList.dropWhile (· ≠ '/') with
  | [] => none
  | _ :: ptr =>
    (stoi ptr).bind fun bits =>
      (lib.address (String.ofList (subnet.toList.takeWhile (· ≠ '/')))).map fun addr =>
        { addr, bits := (bits % 4294967296).toNat }

/-- `SubNet::to_string`; `text` is what `std::to_string` makes of an address. -/
def SubNet.toString (text : Address → String) (sn : SubNet) : String :=
  match sn.addr with
  | .empty => "None"
  | addr => text addr ++ "/" ++ Nat.repr sn.bits

/-- The loop that builds the mask in `contains`. -/
def netmask : Nat → BitVec 32
  | 0 => 0
  | n + 1 => (netmask n >>> 1) ||| 0x80000000

def SubNet.contains (sn : SubNet) (addr : BitVec 32) : Bool :=
  match sn.addr with
  | .inet subnet =>
    let netmask := htonl (netmask sn.bits)
    let net := addr &&& netmask
    let base := subnet &&& netmask
    base == net && (base ||| net) == net
  | _ => false

/-- Of the two tests the first one says it all. -/
theorem SubNet.contains_iff_and (base : BitVec 32) (bits : Nat) (addr : BitVec 32) :
    ({ addr := .inet base, bits } : SubNet).contains addr = true ↔
      addr &&& htonl (netmask bits) = base &&& htonl (netmask bits) := by
  simp only [SubNet.contains, Bool.and_eq_true, beq_iff_eq]
  constructor
  · exact fun hc => hc.1.symm
  · exact fun he => ⟨he.symm, by rw [he, BitVec.or_self]⟩

/-- An entry of `getifaddrs`; of the mask only its `sin_addr` is read. -/
structure Interface where
  addr : Option Address
  netmask : Option (BitVec 32)
deriving Repr, DecidableEq

/-- The loop of `for_each` that counts the bits of a mask, in an `unsigned long`; after 64 rounds nothing is left
    of it. -/
def countBits : Nat → BitVec 64 → Nat
  | 0, _ => 0
  | n + 1, s_addr =>
    if s_addr = 0 then 0
    else (if s_addr &&& 0x80000000 ≠ 0 then 1 else 0) + countBits n (s_addr <<< 1)

/-- The subnets that `for_each` visits, in the order of the interfaces. -/
def SubNet.ofInterfaces (ifaces : List Interface) : List SubNet :=
  ifaces.filterMap fun iface =>
    match iface.addr, iface.netmask with
    | some (.inet addr), some mask => some { addr := .inet addr, bits := countBits 64 ((htonl mask).setWidth 64) }
    | _, _ => none

end UdjatNetwork.Ip
