import UdjatNetwork.Theorems.Query

/-! # What a refresh does with its queries

The queries of a refresh come to the records for the host, or to the exception that ends it; the address of the
server that they pass through is never kept, since a `Resolver` takes no server that has one. -/

namespace UdjatNetwork.Dns
open Agent

variable {a : Agent} {env : RefreshEnv}

/-- A refresh looks for the address of the server first. -/
def Agent.AsksServer (a : Agent) : Prop := a.serverName.getD "" ≠ "" ∧ a.serverIp.isEmpty = true

instance (a : Agent) : Decidable a.AsksServer := inferInstanceAs (Decidable (_ ∧ _))

/-- The query for the host, by a resolver without a server of its own. -/
def Agent.hostQuery (a : Agent) (env : RefreshEnv) : Except Error (List Record) :=
  if env.init then query a.hostname env.answer else .error .other

/-- The queries of a refresh; no records, when one of them brings none. -/
def Agent.outcome (a : Agent) (env : RefreshEnv) : Except Error (List Record) :=
  if a.AsksServer then
    if env.serverInit then
      match query (a.serverName.getD "") env.serverAnswer with
      | .error e => .error e
      | .ok [] => .ok []
      | .ok (r :: _) => if r.addr.isEmpty then a.hostQuery env else .error .other
    else .error .other
  else if a.serverIp.isEmpty then a.hostQuery env else .error .other

/-- The query fails by a `DNS::Exception`. -/
def Failed (outcome : Except Error (List Record)) : Prop := ∃ code, outcome = .error (.dns code)

/-- The answer begins with a record that is no A record. -/
def FirstOther (outcome : Except Error (List Record)) : Prop :=
  ∃ r rs, outcome = .ok (r :: rs) ∧ r.type ≠ ns_t_a

@[simp] theorem failed_error {e : Error} : Failed (.error e) ↔ ∃ code, e = .dns code := by
  simp [Failed]

@[simp] theorem not_failed_ok {records : List Record} : ¬ Failed (.ok records) := by
  simp [Failed]

@[simp] theorem not_firstOther_error {e : Error} : ¬ FirstOther (.error e) := by
  simp [FirstOther]

@[simp] theorem not_firstOther_nil : ¬ FirstOther (.ok []) := by
  simp [FirstOther]

theorem firstOther_cons {name : String} {answer : Answer} {r : Record} {rs : List Record}
    (h : query name answer = .ok (r :: rs)) : FirstOther (query name answer) ↔ r.addr.isEmpty = true := by
  have hother : FirstOther (query name answer) ↔ r.type ≠ ns_t_a := by
    rw [h]
    exact ⟨fun ⟨_, _, he, hne⟩ => by cases he; exact hne, fun hne => ⟨r, rs, rfl, hne⟩⟩
  rw [hother]
  rcases addr_of_query h r List.mem_cons_self with ⟨htype, addr, haddr⟩ | ⟨htype, haddr⟩
  · simp [htype, haddr, Address.isEmpty]
  · simp [htype, haddr, Address.isEmpty]

/-! ### The two blocks -/

theorem connect_eq (init : Bool) (server : Address) :
    connect init server = if init = true ∧ server.isEmpty = true then .ok () else .error .other := by
  unfold connect
  cases init <;> simp

/-- A refresh that got through its first block. -/
theorem refresh_of_server {b : Agent} (hserver : a.resolveServer env = .ok (some b)) :
    a.refresh env =
      match (if b.serverIp.isEmpty then b.hostQuery env else .error .other : Except Error (List Record)) with
      | .error e => b.caught e
      | .ok [] => (.undefined, false)
      | .ok (r :: _) => (({ b with address := r.addr }.set NETDB_SUCCESS).1.refreshIp env.start, false) := by
  have hc := connect_eq env.init b.serverIp
  unfold Agent.hostQuery
  by_cases hconnect : env.init = true ∧ b.serverIp.isEmpty = true
  · rw [if_pos hconnect] at hc
    rcases hq : query b.hostname env.answer with e | (_ | ⟨r, rs⟩) <;>
      simp only [refresh_eq hserver hc, hconnect.1, hconnect.2, if_true, hq]
  · rw [if_neg hconnect] at hc
    have hother : (if b.serverIp.isEmpty then if env.init then query b.hostname env.answer else .error .other
        else .error .other : Except Error (List Record)) = .error .other := by
      cases hi : env.init <;> cases hs : b.serverIp.isEmpty <;> simp_all
    rw [hother]
    unfold Agent.refresh
    rw [hserver]
    simp only [Agent.resolveHost, hc]
    rfl

theorem resolveServer_eq (hasks : a.AsksServer) :
    a.resolveServer env =
      if env.serverInit then
        (query (a.serverName.getD "") env.serverAnswer).map fun records =>
          records.head?.map fun r => { a with serverIp := r.addr }
      else .error .other := by
  have hserver : a.resolveServer env = _ := if_pos hasks
  rw [hserver, connect_eq]
  cases env.serverInit with
  | true => rcases query (a.serverName.getD "") env.serverAnswer with e | (_ | ⟨r, rs⟩) <;> rfl
  | false => rfl

/-- A refresh takes the exception or the first record of its queries, and leaves no server address. -/
theorem refresh_spec (a : Agent) (env : RefreshEnv) :
    a.refresh env =
      match a.outcome env with
      | .error e => a.caught e
      | .ok [] => (.undefined, false)
      | .ok (r :: _) =>
        (({ a with serverIp := .empty, address := r.addr }.set NETDB_SUCCESS).1.refreshIp env.start, false) := by
  unfold Agent.outcome
  by_cases hasks : a.AsksServer
  · have hserver : a.resolveServer env = _ := resolveServer_eq hasks
    rw [if_pos hasks]
    by_cases hinit : env.serverInit = true
    · rw [if_pos hinit] at hserver ⊢
      rcases hq : query (a.serverName.getD "") env.serverAnswer with e | (_ | ⟨r, rs⟩)
      · rw [hq] at hserver
        rw [Agent.refresh, hserver]
        rfl
      · rw [hq] at hserver
        rw [Agent.refresh, hserver]
        rfl
      · rw [hq] at hserver
        rw [refresh_of_server hserver]
        by_cases hempty : r.addr.isEmpty = true
        · simp only [Address.isEmpty_iff.mp hempty]
          rfl
        · simp only [if_neg hempty]
          rfl
    · rw [if_neg hinit] at hserver ⊢
      rw [Agent.refresh, hserver]
  · have hserver : a.resolveServer env = .ok (some a) := if_neg hasks
    rw [refresh_of_server hserver, if_neg hasks]
    by_cases hempty : a.serverIp.isEmpty = true
    · rw [if_pos hempty]
      simp only [← Address.isEmpty_iff.mp hempty]
    · rw [if_neg hempty]

/-! ### The records of an outcome -/

theorem hostQuery_cons {r : Record} {rs : List Record} (h : a.hostQuery env = .ok (r :: rs)) :
    query a.hostname env.answer = .ok (r :: rs) := by
  unfold Agent.hostQuery at h
  split_ifs at h
  exact h

theorem outcome_cons {r : Record} {rs : List Record} (h : a.outcome env = .ok (r :: rs)) :
    query a.hostname env.answer = .ok (r :: rs) := by
  unfold Agent.outcome at h
  split_ifs at h with hasks hinit hserver
  · rcases hq : query (a.serverName.getD "") env.serverAnswer with e | (_ | ⟨s, ss⟩) <;> rw [hq] at h
    · cases h
    · cases h
    · simp only at h
      split_ifs at h
      exact hostQuery_cons h
  · exact hostQuery_cons h

theorem firstOther_outcome {r : Record} {rs : List Record} (h : a.outcome env = .ok (r :: rs)) :
    FirstOther (a.outcome env) ↔ r.addr.isEmpty = true := by
  have hq := outcome_cons h
  rw [h, ← hq]
  exact firstOther_cons hq

end UdjatNetwork.Dns
