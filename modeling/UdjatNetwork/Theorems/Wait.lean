import UdjatNetwork.Theorems.Answer

/-! # Waiting for a host

`Resolver::wait` asks until there is an answer or the time is over. It reports through the records that its queries
leave behind, and an exception of the last one may leave some of them there. -/

namespace UdjatNetwork.Dns

variable {hostname : String} {limit : Int} {rounds : List Round} {round : Round}

/-- The record that the loop of `query` makes of what `rr` holds. -/
def Parse.record (p : Parse) : Option Record := p.rr.bind Record.ofRR

namespace Nquery

/-- There is no answer, or no record in it. -/
def NoRecords : Nquery → Prop
  | .failed _ => True
  | .message ps => ps = []

/-- Every answer record becomes a record. -/
def Sound : Nquery → Prop
  | .failed _ => True
  | .message ps => ∀ p ∈ ps, p.record ≠ none

/-- Every answer record becomes a record, or the first one throws. -/
def Clean : Nquery → Prop
  | .failed _ => True
  | .message ps => (∀ p ∈ ps, p.record ≠ none) ∨ ∃ p rest, ps = p :: rest ∧ p.Throws

end Nquery

/-- The round finds no record, in time. -/
def Round.Again (limit : Int) (x : Round) : Prop := x.now < limit ∧ x.nquery.NoRecords

/-- The loop gets to the round: those before it find no record, in time. -/
def Reached (limit : Int) (rounds : List Round) (round : Round) : Prop :=
  ∃ pre post, rounds = pre ++ round :: post ∧ ∀ x ∈ pre, x.Again limit

/-- What a wait should do until its limit: every query begins before it. It returns zero when the resolver is not
    empty, with the records of the last query, and another value otherwise, `ETIMEDOUT` when no query threw. It goes on
    only as long as the limit is not reached. -/
def Reports (limit : Int) (rounds : List Round) (w : List Attempt × Ended (Resolver × Int)) : Prop :=
  (∀ q ∈ w.1, q.round.now < limit) ∧
    match w.2 with
    | .returned (r, status) =>
      (status = 0 ↔ r.records ≠ []) ∧
      (status = 0 → ∃ q ps, w.1.getLast? = some q ∧ q.round.nquery = .message ps ∧
        ps.map Parse.record = r.records.map some) ∧
      (status ≠ 0 → (∀ q ∈ w.1, q.threw = false) → status = ETIMEDOUT)
    | .waiting => ∀ x ∈ rounds, x.now < limit
    | _ => False

/-! ### A query -/

theorem Parse.record_eq_none {p : Parse} : p.record = none ↔ p.rr = none ∨ p.Throws := by
  unfold Parse.record Parse.Throws
  cases p.rr <;> simp

namespace Resolver

/-- The loop of `query` makes records of all answer records, or of those before one of which it makes none. -/
theorem emplaceRecords_cases (r : Resolver) (ps : List Parse) :
    (∃ records, ps.map Parse.record = records.map some ∧
      r.emplaceRecords ps = some ({ records := r.records ++ records }, true)) ∨
    ∃ taken p rest records, ps = taken ++ p :: rest ∧ taken.map Parse.record = records.map some ∧ p.record = none ∧
      r.emplaceRecords ps = if p.rr = none then none else some ({ records := r.records ++ records }, false) := by
  induction ps generalizing r with
  | nil => exact Or.inl ⟨[], rfl, by rw [List.append_nil]; rfl⟩
  | cons p ps ih =>
    cases hrr : p.rr with
    | none =>
      refine Or.inr ⟨[], p, ps, [], rfl, rfl, Parse.record_eq_none.mpr (Or.inl hrr), ?_⟩
      rw [if_pos hrr, emplaceRecords, hrr]
    | some rr =>
      cases hrecord : Record.ofRR rr with
      | none =>
        refine Or.inr ⟨[], p, ps, [], rfl, rfl, Parse.record_eq_none.mpr (Or.inr ⟨rr, hrr, hrecord⟩), ?_⟩
        simp [emplaceRecords, hrr, hrecord]
      | some record =>
        have hfirst : p.record = some record := by rw [Parse.record, hrr, Option.bind_some, hrecord]
        have hnext : r.emplaceRecords (p :: ps) = emplaceRecords { records := r.records ++ [record] } ps := by
          simp only [emplaceRecords, hrr, hrecord]
        rcases ih { records := r.records ++ [record] } with ⟨records, hall, heq⟩ | ⟨taken, q, rest, records, rfl, ht, hq, heq⟩
        · refine Or.inl ⟨record :: records, by rw [List.map_cons, List.map_cons, hfirst, hall], ?_⟩
          rw [hnext, heq, List.append_assoc, List.singleton_append]
        · refine Or.inr ⟨p :: taken, q, rest, record :: records, rfl, ?_, hq, ?_⟩
          · rw [List.map_cons, List.map_cons, hfirst, ht]
          · rw [hnext, heq, List.append_assoc, List.singleton_append]

/-- What a query of `wait` does: it finds nothing, or records, or stops at an answer record. -/
theorem query_cases (r : Resolver) (hname : hostname ≠ "") (n : Nquery) :
    (n.NoRecords ∧ r.query hostname false n = some ({}, .ok ())) ∨
    (∃ ps records, n = .message ps ∧ records ≠ [] ∧ ps.map Parse.record = records.map some ∧
      r.query hostname false n = some ({ records }, .ok ())) ∨
    ∃ taken p rest records, n = .message (taken ++ p :: rest) ∧ taken.map Parse.record = records.map some ∧
      p.record = none ∧
      r.query hostname false n = if p.rr = none then none else some ({ records }, .error .other) := by
  unfold query
  rw [if_neg hname]
  cases n with
  | failed code => exact Or.inl ⟨trivial, rfl⟩
  | message ps =>
    rcases emplaceRecords_cases {} ps with ⟨records, hall, heq⟩ | ⟨taken, p, rest, records, rfl, ht, hp, heq⟩
    · cases records with
      | nil =>
        obtain rfl := List.map_eq_nil_iff.mp hall
        exact Or.inl ⟨rfl, rfl⟩
      | cons record records =>
        refine Or.inr (Or.inl ⟨ps, record :: records, rfl, List.cons_ne_nil _ _, hall, ?_⟩)
        dsimp only
        rw [heq]
        rfl
    · refine Or.inr (Or.inr ⟨taken, p, rest, records, rfl, ht, hp, ?_⟩)
      dsimp only
      rw [heq]
      split_ifs <;> rfl

end Resolver

/-! ### The loop -/

theorem reached_cons {x : Round} :
    Reached limit (x :: rounds) round ↔ round = x ∨ x.Again limit ∧ Reached limit rounds round := by
  constructor
  · rintro ⟨_ | ⟨y, pre⟩, post, he, hpre⟩
    · exact Or.inl (List.cons.inj he).1.symm
    · obtain ⟨rfl, rfl⟩ := List.cons.inj he
      obtain ⟨hx, hpre⟩ := List.forall_mem_cons.mp hpre
      exact Or.inr ⟨hx, pre, post, rfl, hpre⟩
  · rintro (rfl | ⟨hx, pre, post, rfl, hpre⟩)
    · exact ⟨[], rounds, rfl, fun x hx => by cases hx⟩
    · exact ⟨x :: pre, post, rfl, List.forall_mem_cons.mpr ⟨hx, hpre⟩⟩

theorem Round.Again.nil {x : Round} {ps : List Parse} (hx : x.Again limit) (hn : x.nquery = .message ps) : ps = [] := by
  have hno : x.nquery.NoRecords := hx.2
  rwa [hn] at hno

/-- A round without a record, in time, adds its query to those of the rest. -/
theorem waitLoop_again {x : Round} (hname : hostname ≠ "") (hx : x.Again limit) :
    ({} : Resolver).waitLoop hostname limit (x :: rounds) =
      (⟨x, false⟩ :: (({} : Resolver).waitLoop hostname limit rounds).1,
        (({} : Resolver).waitLoop hostname limit rounds).2) := by
  have hquery : ({} : Resolver).query hostname false x.nquery = some ({}, .ok ()) := by
    rcases Resolver.query_cases {} hname x.nquery with ⟨-, hq⟩ | ⟨ps, records, hn, hne, hall, -⟩ |
        ⟨taken, p, rest, records, hn, -⟩
    · exact hq
    · rw [hx.nil hn] at hall
      exact absurd (List.map_eq_nil_iff.mp hall.symm) hne
    · simpa using hx.nil hn
  rw [Resolver.waitLoop, if_pos hx.1, hquery]
  simp

/-- Another round ends the loop: it is late, or its query finds records, or stops at an answer record. -/
theorem waitLoop_ends {x : Round} (hname : hostname ≠ "") (hx : ¬ x.Again limit) (rounds : List Round) :
    (¬ x.now < limit ∧ ({} : Resolver).waitLoop hostname limit (x :: rounds) = ([], .returned ({}, ETIMEDOUT))) ∨
    (x.now < limit ∧ ∃ ps records, x.nquery = .message ps ∧ records ≠ [] ∧ ps.map Parse.record = records.map some ∧
      ({} : Resolver).waitLoop hostname limit (x :: rounds) = ([⟨x, false⟩], .returned ({ records }, 0))) ∨
    (x.now < limit ∧ ∃ taken p rest records, x.nquery = .message (taken ++ p :: rest) ∧
      taken.map Parse.record = records.map some ∧ p.record = none ∧
      ({} : Resolver).waitLoop hostname limit (x :: rounds) =
        if p.rr = none then ([⟨x, false⟩], .undefined) else ([⟨x, true⟩], .returned ({ records }, -1))) := by
  rw [Resolver.waitLoop]
  by_cases hnow : x.now < limit
  swap
  · exact Or.inl ⟨hnow, if_neg hnow⟩
  rw [if_pos hnow]
  rcases Resolver.query_cases {} hname x.nquery with ⟨hno, -⟩ | ⟨ps, records, hn, hne, hall, hq⟩ |
      ⟨taken, p, rest, records, hn, ht, hp, hq⟩
  · exact absurd ⟨hnow, hno⟩ hx
  · refine Or.inr (Or.inl ⟨hnow, ps, records, hn, hne, hall, ?_⟩)
    rw [hq]
    exact if_pos hne
  · refine Or.inr (Or.inr ⟨hnow, taken, p, rest, records, hn, ht, hp, ?_⟩)
    rw [hq]
    by_cases hrr : p.rr = none
    · rw [if_pos hrr, if_pos hrr]
    · rw [if_neg hrr, if_neg hrr]

/-- The first query of an empty name throws. -/
theorem waitLoop_noname (rounds : List Round) : Reports limit rounds (({} : Resolver).waitLoop "" limit rounds) := by
  cases rounds with
  | nil => simp [Resolver.waitLoop, Reports]
  | cons x rounds =>
    by_cases hx : x.now < limit
    · simp [Resolver.waitLoop, Resolver.query, Reports, hx]
    · simp [Resolver.waitLoop, Reports, hx, ETIMEDOUT]

theorem reports_cons {x : Round} {w : List Attempt × Ended (Resolver × Int)} (hx : x.Again limit) :
    Reports limit (x :: rounds) (⟨x, false⟩ :: w.1, w.2) ↔ Reports limit rounds w := by
  obtain ⟨attempts, e⟩ := w
  unfold Reports
  simp only [List.forall_mem_cons, hx.1, true_and]
  refine and_congr_right fun _ => ?_
  cases e with
  | returned result =>
    obtain ⟨r, status⟩ := result
    refine and_congr_right fun hzero => and_congr_left fun _ => imp_congr_right fun hstatus => ?_
    cases attempts with
    | nil =>
      -- The only query found no record.
      refine iff_of_false ?_ fun ⟨q, _, hq, _⟩ => by cases hq
      rintro ⟨q, ps, hq, hn, hall⟩
      cases hq
      rw [hx.nil hn] at hall
      exact hzero.mp hstatus (List.map_eq_nil_iff.mp hall.symm)
    | cons a attempts => rw [List.getLast?_cons_cons]
  | waiting | threw | terminated | undefined => exact Iff.rfl

section Clean
variable {n : Nquery} {ps : List Parse} {records : List Record}

theorem Nquery.NoRecords.clean (h : n.NoRecords) : n.Clean := by
  cases n with
  | failed => trivial
  | message ps =>
    obtain rfl : ps = [] := h
    exact Or.inl fun p hp => by cases hp

theorem sound_of_records (hall : ps.map Parse.record = records.map some) : (Nquery.message ps).Sound := by
  intro p hp hnone
  obtain ⟨r, -, hr⟩ := List.mem_map.mp (hall ▸ List.mem_map_of_mem hp)
  rw [hnone] at hr
  cases hr

/-- An answer record of which no record is made leaves those before it there. -/
theorem clean_iff_nil {taken rest : List Parse} {p : Parse} (ht : taken.map Parse.record = records.map some)
    (hp : p.record = none) : (Nquery.message (taken ++ p :: rest)).Clean ↔ records = [] ∧ p.rr ≠ none := by
  have hnil : taken = [] ↔ records = [] := by
    rw [← List.map_eq_nil_iff (f := Parse.record), ht, List.map_eq_nil_iff]
  rw [← hnil]
  constructor
  · rintro (hsound | ⟨q, rest', he, hthrows⟩)
    · exact absurd hp (hsound p (by simp))
    · rcases taken with _ | ⟨t, taken⟩
      · obtain ⟨rfl, -⟩ := List.cons.inj he
        obtain ⟨rr, hrr, -⟩ := hthrows
        exact ⟨rfl, by simp [hrr]⟩
      · obtain ⟨rfl, -⟩ := List.cons.inj he
        have hnone : t.record = none := Parse.record_eq_none.mpr (Or.inr hthrows)
        rw [List.map_cons, hnone] at ht
        cases records <;> simp at ht
  · rintro ⟨rfl, hrr⟩
    exact Or.inr ⟨p, rest, rfl, (Parse.record_eq_none.mp hp).resolve_left hrr⟩

end Clean

theorem waitLoop_last {x : Round} (hname : hostname ≠ "") (hx : ¬ x.Again limit) :
    Reports limit (x :: rounds) (({} : Resolver).waitLoop hostname limit (x :: rounds)) ↔
      (x.now < limit → x.nquery.Clean) := by
  rcases waitLoop_ends hname hx rounds with ⟨hlate, hend⟩ | ⟨hnow, ps, records, hn, hne, hall, hend⟩ |
      ⟨hnow, taken, p, rest, records, hn, ht, hp, hend⟩
  · simp [hend, Reports, hlate, ETIMEDOUT]
  · have hclean : x.nquery.Clean := hn ▸ Or.inl (sound_of_records hall)
    refine iff_of_true ?_ fun _ => hclean
    rw [hend]
    simp [Reports, hne, hnow, hn, hall]
  · rw [hend, hn, clean_iff_nil ht hp]
    by_cases hrr : p.rr = none
    · simp [Reports, hrr, hnow]
    · simp [Reports, hrr, hnow]

theorem waitLoop_reports (hname : hostname ≠ "") (rounds : List Round) :
    Reports limit rounds (({} : Resolver).waitLoop hostname limit rounds) ↔
      ∀ round, Reached limit rounds round → round.now < limit → round.nquery.Clean := by
  induction rounds with
  | nil =>
    refine iff_of_true (by simp [Resolver.waitLoop, Reports]) ?_
    rintro round ⟨pre, post, he, -⟩
    simp at he
  | cons x rounds ih =>
    simp only [reached_cons, forall_eq_or_imp]
    by_cases hx : x.Again limit
    · rw [waitLoop_again hname hx, reports_cons hx, ih]
      simp [hx, hx.2.clean]
    · rw [waitLoop_last hname hx]
      simp [hx]

/-- A wait reports what its queries found, if and only if, with a name that is not empty, no query that it makes throws
    behind an answer record that became a record. --/
theorem wait_reports_iff (r : Resolver) (hostname : String) (timeout interval start : Int) (rounds : List Round) :
    Reports (start + timeout) rounds (r.wait hostname timeout interval start rounds) ↔
      (hostname ≠ "" → ∀ round, Reached (start + timeout) rounds round → round.now < start + timeout →
        round.nquery.Clean) := by
  unfold Resolver.wait
  by_cases hname : hostname = ""
  · subst hname
    exact iff_of_true (waitLoop_noname rounds) fun hne => absurd rfl hne
  · rw [waitLoop_reports hname]
    simp [hname]

/-- Two A records, the second one with three bytes: the wait fails, and leaves the first one. --/
theorem wait_leaves_record :
    ¬ ∀ (r : Resolver) (hostname : String) (timeout interval start : Int) (rounds : List Round),
      Reports (start + timeout) rounds (r.wait hostname timeout interval start rounds) := by
  intro h
  obtain ⟨-, hzero, -⟩ := h {} "www" 10 1 0
    [⟨0, .message [.ok { type := 1, rdata := [127, 0, 0, 1] }, .ok { type := 1, rdata := [127, 0, 0] }]⟩]
  exact absurd (hzero.mpr (by decide)) (by decide)

end UdjatNetwork.Dns
