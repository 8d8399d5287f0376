import UdjatNetwork.Support.Bytes
import UdjatNetwork.Udjat

/-! # DNS queries

`DNS::Record` and `DNS::Resolver` (`dns/linux/record.cc`, `dns/linux/resolver.cc`), as far as the agent
uses them: the type and the address of the answer records. -/

namespace UdjatNetwork.Dns
open Bytes

def NETDB_SUCCESS : Int := 0
def HOST_NOT_FOUND : Int := 1
def TRY_AGAIN : Int := 2
def NO_RECOVERY : Int := 3
def NO_DATA : Int := 4

def ns_t_a : Nat := 1

/-- The types of records whose data is a name: NS, CNAME, MB, MG, MR, PTR, DNAME. -/
def namedTypes : List Nat := [2, 5, 7, 8, 9, 12, 39]

/-- An answer record, as `ns_parserr` leaves it; `expands` tells whether `dn_expand` accepts its data. -/
structure RR where
  type : Nat
  rdata : List UInt8
  expands : Bool := true
deriving Repr, DecidableEq

structure Record where
  type : Nat
  addr : Address := .empty
deriving Repr, DecidableEq

/-- The constructor of `Record`; none, when it throws. -/
def Record.ofRR (rr : RR) : Option Record :=
  if rr.type = ns_t_a then
    if rr.rdata.length ≠ 4 then none
    else some { type := rr.type, addr := .inet (BitVec.ofNat 32 (field rr.rdata 0 4)) }
  else if rr.type ∈ namedTypes then
    if rr.expands then some { type := rr.type } else none
  else some { type := rr.type }

/-- The loop of `Resolver::query` over the answer. -/
def Record.ofRRs : List RR → Option (List Record)
  | [] => some []
  | rr :: rrs => (Record.ofRR rr).bind fun r => (Record.ofRRs rrs).map (r :: ·)

/-- What `res_nquery` gives: a failure with its `h_errno`, or the records of the answer. -/
inductive Answer where
  | failed (h_errno : Int)
  | response (rrs : List RR)
deriving Repr, DecidableEq

/-- The exceptions of a query: a `DNS::Exception`, or another one. -/
inductive Error where
  | dns (code : Int)
  | other
deriving Repr, DecidableEq

/-- `Resolver::query`, which throws a `DNS::Exception` when the query fails. -/
def query (name : String) (answer : Answer) : Except Error (List Record) :=
  if name = "" then .error .other
  else match answer with
    | .failed h_errno => .error (.dns h_errno)
    | .response rrs =>
      match Record.ofRRs rrs with
      | some records => .ok records
      | none => .error .other

/-! ### The resolver -/

/-- A call of `ns_parserr`: the answer record, or what `rr` holds after it failed; nothing, when no call before
    wrote to it. -/
inductive Parse where
  | ok (rr : RR)
  | failed (left : Option RR)
deriving Repr, DecidableEq

/-- What `rr` holds after the call. -/
def Parse.rr : Parse → Option RR
  | ok rr => some rr
  | failed left => left

/-- What `res_nquery` gives: a failure, or a message, with the calls of `ns_parserr` for as many answer records as
    `ns_msg_count` tells. -/
inductive Nquery where
  | failed (h_errno : Int)
  | message (parses : List Parse)
deriving Repr, DecidableEq

structure Resolver where
  records : List Record := []
deriving Repr, DecidableEq

/-- The loop of `Resolver::query`, which does not look at what `ns_parserr` returns, and whether it gets through;
    none, when it reads an `rr` without a value. -/
def Resolver.emplaceRecords (r : Resolver) : List Parse → Option (Resolver × Bool)
  | [] => some (r, true)
  | p :: ps =>
    match p.rr with
    | none => none
    | some rr =>
      match Record.ofRR rr with
      | none => some (r, false)
      | some record => Resolver.emplaceRecords { records := r.records ++ [record] } ps

/-- `Resolver::query`: the records it leaves, and its exception. -/
def Resolver.query (r : Resolver) (name : String) (except : Bool) (nquery : Nquery) :
    Option (Resolver × Except Error Unit) :=
  if name = "" then some (r, .error .other)
  else match nquery with
    | .failed h_errno => some ({}, if except then .error (.dns h_errno) else .ok ())
    | .message parses =>
      (Resolver.emplaceRecords {} parses).map fun (r, through) =>
        (r, if through then .ok () else .error .other)

/-! ### Waiting -/

def ETIMEDOUT : Int := 110

/-- How a call ends; an exception that leaves a `noexcept` function terminates the process. -/
inductive Ended (α : Type) where
  | returned (a : α)
  | threw
  | terminated
  | undefined
  | waiting
deriving Repr, DecidableEq

/-- What a round of the loop in `wait` gets: the time, and the answer to its query, if it comes to that. -/
structure Round where
  now : Int
  nquery : Nquery
deriving Repr, DecidableEq

/-- A round that made its query, and whether an exception left the query. -/
structure Attempt where
  round : Round
  threw : Bool
deriving Repr, DecidableEq

/-- The loop of `wait` and its handlers: the queries made, and how it ends, with the records and the value that it
    returns. It is waiting when it goes on after these rounds. No `system_error` leaves `query`. -/
def Resolver.waitLoop (r : Resolver) (hostname : String) (limit : Int) :
    List Round → List Attempt × Ended (Resolver × Int)
  | [] => ([], .waiting)
  | round :: rounds =>
    if round.now < limit then
      match r.query hostname false round.nquery with
      | none => ([⟨round, false⟩], .undefined)
      | some (r, .error _) => ([⟨round, true⟩], .returned (r, -1))
      | some (r, .ok ()) =>
        if r.records ≠ [] then ([⟨round, false⟩], .returned (r, 0))
        else
          let rest := Resolver.waitLoop r hostname limit rounds
          (⟨round, false⟩ :: rest.1, rest.2)
    else ([], .returned (r, ETIMEDOUT))

/-- `Resolver::wait`, called at the time `start`; `sleep` between the rounds takes the interval. -/
def Resolver.wait (_r : Resolver) (hostname : String) (timeout _interval : Int) (start : Int) (rounds : List Round) :
    List Attempt × Ended (Resolver × Int) :=
  Resolver.waitLoop {} hostname (start + timeout) rounds

/-! ### The records of a query -/

/-- An A record of an answer holds an IPv4 address, and any other record none. -/
theorem Record.addr_ofRR {rr : RR} {r : Record} (h : Record.ofRR rr = some r) :
    (r.type = ns_t_a ∧ ∃ addr, r.addr = .inet addr) ∨ (r.type ≠ ns_t_a ∧ r.addr = .empty) := by
  unfold Record.ofRR at h
  split_ifs at h with ha hlen hname hexp <;> cases h
  · exact Or.inl ⟨ha, _, rfl⟩
  · exact Or.inr ⟨ha, rfl⟩
  · exact Or.inr ⟨ha, rfl⟩

theorem Record.mem_ofRRs {rrs : List RR} {records : List Record} (h : Record.ofRRs rrs = some records) :
    ∀ r ∈ records, ∃ rr, Record.ofRR rr = some r := by
  induction rrs generalizing records with
  | nil =>
    cases h
    exact fun r hr => by cases hr
  | cons rr rrs ih =>
    obtain ⟨r₀, hr₀, h⟩ := Option.bind_eq_some_iff.mp h
    obtain ⟨rs, hrs, rfl⟩ := Option.map_eq_some_iff.mp h
    intro r hr
    rcases List.mem_cons.mp hr with rfl | hr
    · exact ⟨rr, hr₀⟩
    · exact ih hrs r hr

theorem addr_of_query {name : String} {answer : Answer} {records : List Record}
    (h : query name answer = .ok records) :
    ∀ r ∈ records, (r.type = ns_t_a ∧ ∃ addr, r.addr = .inet addr) ∨ (r.type ≠ ns_t_a ∧ r.addr = .empty) := by
  unfold query at h
  split_ifs at h
  split at h
  · cases h
  · split at h
    · rename_i rs hrs
      cases h
      intro r hr
      obtain ⟨rr, hrr⟩ := Record.mem_ofRRs hrs r hr
      exact Record.addr_ofRR hrr
    · cases h

end UdjatNetwork.Dns
