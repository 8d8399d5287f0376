import UdjatNetwork.Dns.WaitForHost
import UdjatNetwork.Theorems.Wait

/-! # The two ways to call the action

`call` puts the value of `wait` into its response and returns zero; `activate` returns whether that value is zero. -/

namespace UdjatNetwork.Dns
open WaitForHost

variable {hostname : String} {limit : Int} {rounds : List Round}

/-- The query finds records. -/
def Nquery.Resolves (n : Nquery) : Prop := ¬ n.NoRecords ∧ n.Sound

/-- Both ways have a defined behaviour, report success for the same inputs, and none for a host that no query
    resolves. -/
structure WaitForHost.Agrees (a : WaitForHost) (response : ActionResponse) (except : Bool) (env : WaitEnv) : Prop where
  defined : (a.call response except env).2 ≠ .undefined ∧ a.activate env ≠ .undefined
  same : (a.call response except env).2 = .returned 0 ↔ a.activate env = .returned true
  resolved : (∀ x ∈ env.rounds, ¬ x.nquery.Resolves) →
    (a.call response except env).2 ≠ .returned 0 ∧ a.activate env ≠ .returned true

/-- Every round that the loop gets to is in time, and its query makes records of all answer records. -/
def Steady (limit : Int) (rounds : List Round) : Prop :=
  ∀ round, Reached limit rounds round → round.now < limit ∧ round.nquery.Sound

theorem Nquery.NoRecords.sound {n : Nquery} (h : n.NoRecords) : n.Sound := by
  cases n with
  | failed => trivial
  | message ps =>
    obtain rfl : ps = [] := h
    exact fun p hp => by cases hp

theorem steady_cons {x : Round} :
    Steady limit (x :: rounds) ↔ x.now < limit ∧ x.nquery.Sound ∧ (x.Again limit → Steady limit rounds) := by
  unfold Steady
  simp only [reached_cons, forall_eq_or_imp, and_imp, and_assoc]
  exact and_congr_right fun _ => and_congr_right fun _ => ⟨fun h hx round => h round hx, fun h round hx => h hx round⟩

/-- The loop goes on or ends with the records that it found, as long as it is steady; else it fails, if it ends. -/
theorem waitLoop_end (hname : hostname ≠ "") (limit : Int) (rounds : List Round) :
    (Steady limit rounds ∧ ((({} : Resolver).waitLoop hostname limit rounds).2 = .waiting ∨
      (∃ x ∈ rounds, x.nquery.Resolves) ∧ ∃ r, (({} : Resolver).waitLoop hostname limit rounds).2 = .returned (r, 0))) ∨
    (¬ Steady limit rounds ∧ ((({} : Resolver).waitLoop hostname limit rounds).2 = .undefined ∨
      ∃ r status, status ≠ 0 ∧ (({} : Resolver).waitLoop hostname limit rounds).2 = .returned (r, status))) := by
  induction rounds with
  | nil =>
    refine Or.inl ⟨?_, Or.inl rfl⟩
    rintro round ⟨pre, post, he, -⟩
    simp at he
  | cons x rounds ih =>
    rw [steady_cons]
    by_cases hx : x.Again limit
    · have hsteady : x.now < limit ∧ x.nquery.Sound ∧ (x.Again limit → Steady limit rounds) ↔ Steady limit rounds := by
        simp [hx, hx.1, hx.2.sound]
      rw [waitLoop_again hname hx, hsteady]
      refine ih.imp_left fun ⟨hs, hend⟩ => ⟨hs, hend.imp_right fun ⟨⟨y, hy, hres⟩, hr⟩ => ?_⟩
      exact ⟨⟨y, List.mem_cons_of_mem x hy, hres⟩, hr⟩
    rcases waitLoop_ends hname hx rounds with ⟨hlate, hend⟩ | ⟨hnow, ps, records, hn, hne, hall, hend⟩ |
        ⟨hnow, taken, p, rest, records, hn, ht, hp, hend⟩
    · exact Or.inr ⟨fun h => hlate h.1, Or.inr ⟨{}, ETIMEDOUT, by decide, congrArg Prod.snd hend⟩⟩
    · have hsound : x.nquery.Sound := hn ▸ sound_of_records hall
      have hres : x.nquery.Resolves := ⟨fun hno => hx ⟨hnow, hno⟩, hsound⟩
      refine Or.inl ⟨⟨hnow, hsound, fun h => absurd h hx⟩, Or.inr ⟨⟨x, List.mem_cons_self, hres⟩, ?_⟩⟩
      exact ⟨{ records }, congrArg Prod.snd hend⟩
    · have hunsound : ¬ x.nquery.Sound := by
        rw [hn]
        exact fun h => h p (by simp) hp
      refine Or.inr ⟨fun h => hunsound h.2.1, ?_⟩
      rw [hend]
      by_cases hrr : p.rr = none
      · exact Or.inl (by rw [if_pos hrr])
      · exact Or.inr ⟨{ records }, -1, by decide, by rw [if_neg hrr]⟩

/-- Both ways agree when the resolver cannot be initialised, and as long as no round that the loop gets to is late, or
    has a query that throws. --/
theorem agrees_iff_steady (a : WaitForHost) (response : ActionResponse) (except : Bool) (env : WaitEnv) :
    a.Agrees response except env ↔ (env.init = true → Steady (env.start + a.timeout) env.rounds) := by
  cases hinit : env.init with
  | false =>
    have hwait : a.wait env = .threw := by simp [WaitForHost.wait, hinit]
    refine iff_of_true ?_ fun h => by cases h
    cases except <;> constructor <;> simp [call, activate, hwait]
  | true =>
    have hwait : a.wait env = (({} : Resolver).waitLoop a.hostname (env.start + a.timeout) env.rounds).2 := by
      simp [WaitForHost.wait, Resolver.wait, hinit]
    rcases waitLoop_end a.hostname_ne (env.start + a.timeout) env.rounds with
      ⟨hs, hend | ⟨⟨x, hx, hres⟩, r, hend⟩⟩ | ⟨hs, hend | ⟨r, status, hne, hend⟩⟩
    · refine iff_of_true ?_ fun _ => hs
      constructor <;> simp [call, activate, hwait, hend]
    · refine iff_of_true ?_ fun _ => hs
      refine ⟨by simp [call, activate, hwait, hend], by simp [call, activate, hwait, hend], fun hnone => ?_⟩
      exact absurd hres (hnone x hx)
    · refine iff_of_false (fun h => h.defined.1 ?_) fun h => hs (h rfl)
      simp [call, hwait, hend]
    · refine iff_of_false (fun h => ?_) fun h => hs (h rfl)
      have hsame := h.same
      simp [call, activate, hwait, hend, hne] at hsame

/-- The limit is reached: `call` returns zero, and `activate` false. --/
theorem call_ignores_timeout :
    ¬ ∀ (a : WaitForHost) (response : ActionResponse) (except : Bool) (env : WaitEnv), a.Agrees response except env := by
  intro h
  have hsame := (h ⟨"www", 10, 5, by decide⟩ {} true { start := 0, rounds := [⟨10, .failed HOST_NOT_FOUND⟩] }).same
  exact absurd hsame (by decide)

end UdjatNetwork.Dns
