import UdjatNetwork.Theorems.Refresh

/-! # What a refresh returns

`set` answers whether the state has changed. A refresh returns the answer when the query fails, and nothing of
it when the query succeeds; the address is in no answer. -/

namespace UdjatNetwork.Dns
open Machine Agent

variable {a b : Agent} {env : RefreshEnv}

/-- A call that returns tells whether the code of the DNS state or the address has changed. -/
def Agent.Tells (a : Agent) : Input → Prop
  | .refresh env => ∀ b changed, a.refresh env = (.ok b, changed) →
      (changed = true ↔ b.code ≠ a.code ∨ b.address ≠ a.address)
  | _ => True

/-- `IP::Agent::refresh` returns, for an agent with this address. -/
def Agent.Starts (a : Agent) (addr : Address) (env : RefreshEnv) : Prop :=
  addr.isEmpty = true ∨ a.check = false ∨ a.running = true ∨ env.start = true

/-- A failure finds another code, or no address; a success finds its code and its address. -/
def Agent.Notices (a : Agent) : Input → Prop
  | .refresh env =>
    (∀ code, a.outcome env = .error (.dns code) → a.code = some code → a.address = .empty) ∧
    (∀ r rs, a.outcome env = .ok (r :: rs) → a.Starts r.addr env → a.code = some NETDB_SUCCESS ∧ a.address = r.addr)
  | _ => True

theorem set_changed (code : Int) : (a.set code).2 = true ↔ a.code ≠ some code := by
  rw [Ne, ← matches_iff_code]
  unfold Agent.set Agent.Matches
  split_ifs with hany
  · obtain ⟨st, hst, hcmp⟩ := (Option.any_eq_true _ _).mp hany
    simp [hst, hcmp]
  · refine iff_of_true (by split <;> rfl) ?_
    rintro ⟨st, hst, hcmp⟩
    exact hany (by rw [hst]; exact hcmp)

theorem refreshIp_ok (a : Agent) (start : Bool) :
    (∃ b, a.refreshIp start = .ok b) ↔
      a.address.isEmpty = true ∨ a.check = false ∨ a.running = true ∨ start = true := by
  unfold Agent.refreshIp Ip.Agent.refresh
  by_cases hempty : a.address.isEmpty = true
  · rw [if_pos hempty]
    cases a.ipState <;> simp [hempty]
  · rw [if_neg hempty]
    cases a.check <;> cases a.running <;> cases start <;> simp [hempty]

/-- The agent that a success leaves, and whether it gets there. -/
theorem success_cases {r : Record} {rs : List Record} (h : a.outcome env = .ok (r :: rs)) :
    (a.refresh env).2 = false ∧ ((∃ b, (a.refresh env).1 = .ok b) ↔ a.Starts r.addr env) ∧
      ∀ b, (a.refresh env).1 = .ok b → b.code = some NETDB_SUCCESS ∧ b.address = r.addr := by
  have hto : ({ a with serverIp := .empty, address := r.addr }.set NETDB_SUCCESS).1.toAgent =
      { a.toAgent with address := r.addr } := set_toAgent _
  rw [refresh_spec, h]
  refine ⟨rfl, ?_, fun b hb => ?_⟩
  · rw [refreshIp_ok, hto]
    rfl
  · obtain ⟨c, hc, haddr, hstate⟩ := refreshIp_cases
      ({ a with serverIp := .empty, address := r.addr }.set NETDB_SUCCESS).1 env.start
    change Agent.refreshIp _ env.start = .ok b at hb
    rw [hb] at hc
    cases hc
    refine ⟨?_, by rw [haddr, hto]⟩
    rw [Agent.code, hstate]
    exact set_code NETDB_SUCCESS

theorem failure_tells {code : Int} (h : a.outcome env = .error (.dns code)) :
    a.Tells (.refresh env) ↔ (a.code = some code → a.address = .empty) := by
  let c : Agent := { a with serverIp := .empty, address := .empty }
  have hrefresh : a.refresh env = (.ok (c.set code).1, (c.set code).2) := by rw [refresh_spec, h]; rfl
  have hchanged : (c.set code).2 = true ↔ a.code ≠ some code := set_changed code
  have haddress : (c.set code).1.address = .empty := congrArg Ip.Agent.address (set_toAgent code)
  have hcode : (c.set code).1.code = some code := set_code code
  have htells : a.Tells (.refresh env) ↔ (a.code ≠ some code ↔ some code ≠ a.code ∨ .empty ≠ a.address) := by
    unfold Agent.Tells
    constructor
    · intro ht
      rw [← hchanged, ← hcode, ← haddress]
      exact ht _ _ hrefresh
    · intro ht b changed hb
      rw [hrefresh] at hb
      cases hb
      rwa [hchanged, hcode, haddress]
  rw [htells]
  by_cases hc : a.code = some code
  · simp [hc, eq_comm]
  · exact iff_of_true (iff_of_true hc (Or.inl (Ne.symm hc))) fun he => absurd he hc

theorem success_tells {r : Record} {rs : List Record} (h : a.outcome env = .ok (r :: rs)) :
    a.Tells (.refresh env) ↔ (a.Starts r.addr env → a.code = some NETDB_SUCCESS ∧ a.address = r.addr) := by
  obtain ⟨hfalse, hok, hleft⟩ := success_cases h
  rw [← hok]
  constructor
  · rintro ht ⟨b, hb⟩
    obtain ⟨hcode, haddr⟩ := hleft b hb
    have hsame := mt (ht b false (Prod.ext hb hfalse)).mpr (by decide)
    rw [hcode, haddr, not_or, not_not, not_not] at hsame
    exact ⟨hsame.1.symm, hsame.2.symm⟩
  · intro hs b changed hb
    have hb' : (a.refresh env).1 = .ok b := congrArg Prod.fst hb
    have hchanged : changed = false := (congrArg Prod.snd hb).symm.trans hfalse
    obtain ⟨hcode, haddr⟩ := hs ⟨b, hb'⟩
    obtain ⟨hbcode, hbaddr⟩ := hleft b hb'
    rw [hchanged, hbcode, hbaddr, hcode, haddr]
    simp

theorem tells_iff (a : Agent) (i : Input) : a.Tells i ↔ a.Notices i := by
  cases i with
  | refresh env =>
    unfold Agent.Notices
    rcases ho : a.outcome env with (code | _) | (_ | ⟨r, rs⟩)
    · rw [failure_tells ho]
      simp [ho]
    · refine iff_of_true (fun b changed hb => ?_) (by simp [ho])
      rw [refresh_spec, ho] at hb
      cases hb
    · refine iff_of_true (fun b changed hb => ?_) (by simp [ho])
      rw [refresh_spec, ho] at hb
      cases hb
    · rw [success_tells ho]
      simp [ho]
  | _ => exact Iff.rfl

/-- In every run each refresh that returns tells whether the state has changed, if and only if every failure finds
    another code or no address, and every success finds the agent as it leaves it. --/
theorem told_iff (a : Agent) (is : List Input) : Along step Tells a is ↔ Along step Notices a is :=
  ⟨.mono fun a i => (tells_iff a i).mp, .mono fun a i => (tells_iff a i).mpr⟩

/-- The first success of an agent is not told. --/
theorem success_not_told : ¬ ∀ (a : Agent) (is : List Input), Along step Tells a is := by
  intro h
  let a : Agent := { hostname := "localhost" }
  let env : RefreshEnv := { answer := .response [{ type := 1, rdata := [127, 0, 0, 1] }] }
  have ho : a.outcome env = .ok [⟨1, .inet 0x0100007F⟩] := rfl
  have hstarts : a.Starts (.inet 0x0100007F) env := Or.inr (Or.inr (Or.inr rfl))
  have htells : a.Tells (.refresh env) := (h a [.refresh env]).1
  have hcode : a.code = some NETDB_SUCCESS := ((success_tells ho).mp htells hstarts).1
  cases hcode

end UdjatNetwork.Dns
