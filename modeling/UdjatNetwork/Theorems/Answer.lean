import UdjatNetwork.Dns.Resolver

/-! # The records of an answer

`Resolver::query` puts the answer records into its vector one by one. An exception leaves those before it there, and
what `ns_parserr` cannot read becomes a record too, of what the call before it left. -/

namespace UdjatNetwork.Dns

/-- The constructor of `Record` throws. -/
def Parse.Throws (p : Parse) : Prop := ∃ rr, p.rr = some rr ∧ Record.ofRR rr = none

namespace Resolver

/-- Answer records that are read: those before the first one that the constructor does not take. -/
theorem emplaceRecords_ok (r : Resolver) (rrs : List RR) :
    match Record.ofRRs rrs with
    | some records => r.emplaceRecords (rrs.map Parse.ok) = some ({ records := r.records ++ records }, true)
    | none => ∃ r', r.emplaceRecords (rrs.map Parse.ok) = some (r', false) := by
  induction rrs generalizing r with
  | nil => simp [Record.ofRRs, emplaceRecords]
  | cons rr rrs ih =>
    simp only [Record.ofRRs, List.map_cons, emplaceRecords, Parse.rr]
    cases Record.ofRR rr with
    | none => exact ⟨r, rfl⟩
    | some record =>
      have hrest := ih { records := r.records ++ [record] }
      cases hrs : Record.ofRRs rrs with
      | none =>
        rw [hrs] at hrest
        exact hrest
      | some records =>
        rw [hrs] at hrest
        simpa using hrest

end Resolver

/-- The query as the agents see it, by what it returns or throws. -/
theorem query_eq (r : Resolver) (name : String) (rrs : List RR) :
    (r.query name true (.message (rrs.map Parse.ok))).map (fun q => q.2.map fun _ => q.1.records) =
      some (query name (.response rrs)) := by
  unfold Resolver.query query
  by_cases hname : name = ""
  · rw [if_pos hname, if_pos hname]
    rfl
  · rw [if_neg hname, if_neg hname]
    have hrecords := Resolver.emplaceRecords_ok {} rrs
    cases hrs : Record.ofRRs rrs with
    | none =>
      rw [hrs] at hrecords
      obtain ⟨r', hr'⟩ := hrecords
      simp only [hr', hrs]
      rfl
    | some records =>
      rw [hrs] at hrecords
      simp only [hrecords, hrs]
      rfl

end UdjatNetwork.Dns
