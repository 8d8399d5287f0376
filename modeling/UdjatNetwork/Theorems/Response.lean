import UdjatNetwork.Theorems.AgentSteps
import Mathlib.Data.List.Chain

/-! # The ICMP state follows the response

`IP::Agent::set` compares a response with `icmp.response`, which should be the preceding one, but the
field keeps its first value, `invalid`. -/

namespace UdjatNetwork.Ip
open Agent

variable {a : Agent}

/-- A call after the response `last`: a repetition changes nothing, any other call updates the state. -/
def Agent.CallFollows (a : Agent) (last response : Icmp.Response) (source : Address) : Prop :=
  if response = last then a.set response source = a
  else (a.set response source).updates = a.updates + 1 ∧
    (a.set response source).icmpState = a.stateFor response

/-- All calls do what they should, the first one after the response `last`. -/
def Agent.Follows : Agent → Icmp.Response → List (Icmp.Response × Address) → Prop
  | _, _, [] => True
  | a, last, (response, source) :: calls =>
    a.CallFollows last response source ∧ (a.set response source).Follows response calls

def Agent.sets (a : Agent) (calls : List (Icmp.Response × Address)) : Agent :=
  calls.foldl (fun a c => a.set c.1 c.2) a

/-- After calls of which one brought a response other than `invalid`, the state is one for the last. -/
def Agent.LastFollows (a : Agent) (calls : List (Icmp.Response × Address)) : Prop :=
  (∃ c ∈ calls, c.1 ≠ .invalid) → ∀ c ∈ calls.getLast?, ∃ st, (a.sets calls).icmpState = some st ∧ st.id = c.1

/-- After the response `last`, anything may follow an `invalid`, and else another response that is none. -/
def Changes (last response : Icmp.Response) : Prop :=
  last = .invalid ∨ (response ≠ .invalid ∧ response ≠ last)

/-! ### Calls -/

/-- The remembered response is `invalid`, so a call does what it should unless it repeats another response,
    or is `invalid` after another one. -/
theorem callFollows_iff (ha : a.response = .invalid) (last response : Icmp.Response) (source : Address) :
    a.CallFollows last response source ↔ Changes last response := by
  unfold Agent.CallFollows Changes
  rw [set_eq, ha]
  by_cases hlast : response = last
  · subst hlast
    by_cases hinv : response = .invalid
    · simp [hinv]
    · simp only [if_true, hinv, if_false, ne_eq, not_true_eq_false, and_false, or_false, iff_false]
      intro he
      have hup := congrArg Agent.updates he
      simp at hup
  · by_cases hinv : response = .invalid
    · subst hinv
      simp [hlast, Ne.symm hlast]
    · simp [hlast, hinv]

theorem follows_iff (ha : a.response = .invalid) (last : Icmp.Response) (calls : List (Icmp.Response × Address)) :
    a.Follows last calls ↔ List.IsChain Changes (last :: calls.map Prod.fst) := by
  induction calls generalizing a last with
  | nil => simp [Agent.Follows]
  | cons c calls ih =>
    obtain ⟨response, source⟩ := c
    have hrest := ih (a := a.set response source) (by rw [set_response, ha]) response
    simp only [Agent.Follows, List.map_cons, List.isChain_cons_cons, callFollows_iff ha, hrest]

/-- Along such a sequence the state is one for the last response, once there was one other than `invalid`. -/
theorem sets_last {last : Icmp.Response} {calls : List (Icmp.Response × Address)} (ha : a.response = .invalid)
    (hlast : last ≠ .invalid → ∃ st, a.icmpState = some st ∧ st.id = last)
    (hc : List.IsChain Changes (last :: calls.map Prod.fst))
    (hne : last ≠ .invalid ∨ ∃ c ∈ calls, c.1 ≠ .invalid) :
    ∀ r ∈ (last :: calls.map Prod.fst).getLast?, ∃ st, (a.sets calls).icmpState = some st ∧ st.id = r := by
  induction calls generalizing a last with
  | nil =>
    intro r hr
    obtain rfl : last = r := by simpa using hr
    exact hlast (hne.resolve_right (by simp))
  | cons c calls ih =>
    obtain ⟨response, source⟩ := c
    rw [List.map_cons, List.isChain_cons_cons] at hc
    obtain ⟨hchange, hc⟩ := hc
    rw [List.map_cons, List.getLast?_cons_cons]
    refine ih (a := a.set response source) (by rw [set_response, ha]) (fun hinv => ?_) hc ?_
    · obtain ⟨st, hst, hid⟩ := stateFor_id a response
      exact ⟨st, by rw [set_eq, ha, if_neg hinv]; exact hst, hid⟩
    · by_cases hinv : response = .invalid
      · -- An `invalid` comes first, so the other response is still to come.
        have hnil : last = .invalid := hchange.resolve_right fun h => h.1 hinv
        obtain ⟨c, hc, hcne⟩ := hne.resolve_left (not_not.mpr hnil)
        rcases List.mem_cons.mp hc with rfl | hc
        · exact absurd hinv hcne
        · exact Or.inr ⟨c, hc, hcne⟩
      · exact Or.inl hinv

/-- For every agent, every list of states and every sequence of calls, all calls do what they should, and the
    state is one for the last response, if and only if no call repeats a response other than `invalid`
    and none brings `invalid` after another one. --/
theorem response_followed_iff (agent : Agent) (calls : List (Icmp.Response × Address)) :
    let a := { agent with response := .invalid, icmpState := none }
    (a.Follows .invalid calls ∧ a.LastFollows calls) ↔
      List.IsChain Changes (.invalid :: calls.map Prod.fst) := by
  intro a
  have ha : a.response = .invalid := rfl
  constructor
  · rintro ⟨hf, -⟩
    exact (follows_iff ha _ _).mp hf
  · intro hc
    refine ⟨(follows_iff ha _ _).mpr hc, fun hne c hlast => ?_⟩
    refine sets_last ha (fun h => absurd rfl h) hc (Or.inr hne) c.1 ?_
    rw [List.getLast?_cons, List.getLast?_map, Option.mem_def.mp hlast]
    rfl

/-- After an `echo_reply`, an `invalid` leaves the state that it found. --/
theorem invalid_ignored :
    ¬ ∀ (agent : Agent) (calls : List (Icmp.Response × Address)),
      let a := { agent with response := .invalid, icmpState := none }
      a.Follows .invalid calls ∧ a.LastFollows calls := by
  intro h
  obtain ⟨hf, -⟩ := h {} [(.echoReply, .empty), (.invalid, .empty)]
  have hcall : Agent.CallFollows _ .echoReply .invalid .empty := hf.2.1
  exact absurd hcall.1 (by decide)

end UdjatNetwork.Ip
