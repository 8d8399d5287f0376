import UdjatNetwork.Ip.Agent

/-! # What the calls of an IP agent do -/

namespace UdjatNetwork.Ip
open Agent

variable {a : Agent}

/-- The state for a response: the first one of the XML definition, or else the predefined one. -/
def Agent.stateFor (a : Agent) (response : Icmp.Response) : Option Icmp.State :=
  (a.icmpStates.find? (·.id = response)).or (Icmp.State.factory response)

theorem stateFor_id (a : Agent) (response : Icmp.Response) :
    ∃ st, a.stateFor response = some st ∧ st.id = response := by
  unfold Agent.stateFor
  cases hf : a.icmpStates.find? (·.id = response) with
  | some st => exact ⟨st, rfl, by simpa using List.find?_some hf⟩
  | none => exact Icmp.State.factory_id response

theorem set_eq (a : Agent) (response : Icmp.Response) (source : Address) :
    a.set response source =
      if response = a.response then a
      else { a with icmpState := a.stateFor response, updates := a.updates + 1 } := by
  unfold Agent.set Agent.stateFor
  split_ifs
  · rfl
  · obtain ⟨st, hst, -⟩ := Icmp.State.factory_id response
    rw [hst]
    cases a.icmpStates.find? (·.id = response) <;> rfl

@[simp] theorem set_response (response : Icmp.Response) (source : Address) :
    (a.set response source).response = a.response := by
  rw [set_eq]
  split_ifs <;> rfl

@[simp] theorem set_address (response : Icmp.Response) (source : Address) :
    (a.set response source).address = a.address := by
  rw [set_eq]
  split_ifs <;> rfl

/-- Without an address, a refresh drops the subnet state and reports an `invalid`; with one it may start the
    worker. -/
theorem refresh_cases (a : Agent) (start : Bool) :
    ∃ b, (a.refresh start).state? = some b ∧
      (b = a ∨ (a.address.isEmpty = true ∧ b = { a with ipState := none }.set .invalid a.address) ∨
        (a.address.isEmpty = false ∧ b = { a with running := true })) := by
  unfold Agent.refresh
  split_ifs with hempty hcheck hstart
  · split
    · exact ⟨_, rfl, Or.inr (Or.inl ⟨hempty, rfl⟩)⟩
    · exact ⟨_, rfl, Or.inl rfl⟩
  · exact ⟨_, rfl, Or.inr (Or.inr ⟨Bool.not_eq_true _ ▸ hempty, rfl⟩)⟩
  · exact ⟨_, rfl, Or.inl rfl⟩
  · exact ⟨_, rfl, Or.inl rfl⟩

theorem refresh_address {start : Bool} {b : Agent} (hb : (a.refresh start).state? = some b) :
    b.address = a.address := by
  obtain ⟨c, hc, rfl | ⟨-, rfl⟩ | ⟨-, rfl⟩⟩ := refresh_cases a start <;> rw [hc] at hb <;> cases hb
  · rfl
  · rw [set_address]
  · rfl

end UdjatNetwork.Ip
