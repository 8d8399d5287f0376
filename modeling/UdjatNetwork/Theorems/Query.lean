import UdjatNetwork.Dns.Agent
import UdjatNetwork.Theorems.AgentSteps

/-! # The outcome of a DNS query

`refresh` takes the address of the first record for that of the host, whatever the type of the record, and
reads it even when there is none. -/

namespace UdjatNetwork.Dns
open Agent

variable {a : Agent}

/-- The DNS state of the agent matches the code. -/
def Agent.Matches (a : Agent) (code : Int) : Prop := ∃ st, a.dnsState = some st ∧ st.compare code = true

/-- The code of the DNS state. -/
def Agent.code (a : Agent) : Option Int := a.dnsState.map (·.code)

/-- The A records that a query finds. -/
def aRecords : Except Error (List Record) → List Record
  | .ok records => records.filter (·.type = ns_t_a)
  | .error _ => []

/-- What the outcome of a query should do: the address of an A record with a success, or no address. -/
def Reflects (outcome : Except Error (List Record)) (a : Agent) : Prop :=
  (aRecords outcome ≠ [] → (∃ r ∈ aRecords outcome, a.address = r.addr) ∧ a.Matches NETDB_SUCCESS) ∧
  (aRecords outcome = [] → a.address = .empty ∧ ¬ a.Matches NETDB_SUCCESS)

/-- The agent asks the servers of the system. -/
def Agent.NoServer (a : Agent) : Prop := a.serverName.getD "" = "" ∧ a.serverIp = .empty

/-- The query returns records, or fails with the code of an error. -/
def Settled (outcome : Except Error (List Record)) : Prop :=
  (∃ records, outcome = .ok records) ∨ ∃ code, code ≠ NETDB_SUCCESS ∧ outcome = .error (.dns code)

/-- The query fails, or its first record is an A record. -/
def Usable (outcome : Except Error (List Record)) : Prop :=
  ∀ records, outcome = .ok records → ∃ r rs, records = r :: rs ∧ r.type = ns_t_a

/-! ### The DNS state -/

theorem set_toAgent (code : Int) : (a.set code).1.toAgent = a.toAgent := by
  unfold Agent.set
  split_ifs
  · rfl
  · split <;> rfl

theorem matches_iff_code {c : Int} : a.Matches c ↔ a.code = some c := by
  unfold Agent.Matches Agent.code
  cases a.dnsState <;> simp [State.compare, eq_comm]

theorem set_code (code : Int) : (a.set code).1.code = some code := by
  unfold Agent.set
  split_ifs with hany
  · obtain ⟨st, hst, hcmp⟩ := (Option.any_eq_true _ _).mp hany
    simpa [Agent.code, hst, State.compare, eq_comm] using hcmp
  · split
    · rename_i st hfind
      simpa [Agent.code, State.compare, eq_comm] using List.find?_some hfind
    · rfl

theorem matches_set (code c : Int) : (a.set code).1.Matches c ↔ c = code := by
  rw [matches_iff_code, set_code, Option.some.injEq, eq_comm]

theorem refreshIp_cases (a : Agent) (start : Bool) :
    ∃ b, (a.refreshIp start).state? = some b ∧ b.address = a.address ∧ b.dnsState = a.dnsState := by
  obtain ⟨ip, hip, -⟩ := Ip.refresh_cases a.toAgent start
  have haddr := Ip.refresh_address hip
  unfold Agent.refreshIp
  cases hr : a.toAgent.refresh start with
  | ok ip' | threw ip' =>
    rw [hr] at hip
    cases hip
    exact ⟨_, rfl, haddr, rfl⟩
  | undefined =>
    rw [hr] at hip
    cases hip

/-! ### The refresh -/

/-- A refresh that got through its first block, and to the query for the host. -/
theorem refresh_eq {b : Agent} {env : RefreshEnv} (hserver : a.resolveServer env = .ok (some b))
    (hconnect : connect env.init b.serverIp = .ok ()) :
    a.refresh env =
      match query b.hostname env.answer with
      | .error e => b.caught e
      | .ok [] => (.undefined, false)
      | .ok (r :: _) => (({ b with address := r.addr }.set NETDB_SUCCESS).1.refreshIp env.start, false) := by
  unfold Agent.refresh
  rw [hserver]
  simp only [Agent.resolveHost, hconnect]
  rcases query b.hostname env.answer with e | (_ | ⟨r, rs⟩) <;> rfl

theorem Agent.NoServer.resolveServer (hs : a.NoServer) (env : RefreshEnv) :
    a.resolveServer env = .ok (some a) := by
  simp [Agent.resolveServer, hs.1]

theorem Agent.NoServer.connect (hs : a.NoServer) {init : Bool} (hinit : init = true) :
    connect init a.serverIp = .ok () := by
  simp [Dns.connect, hinit, hs.2, Address.isEmpty]

theorem reflects_of_error (code : Int) (h0 : code ≠ NETDB_SUCCESS) :
    Reflects (.error (.dns code)) ({ a with serverIp := .empty, address := .empty }.set code).1 := by
  have haddr := congrArg Ip.Agent.address (set_toAgent (a := { a with serverIp := .empty, address := .empty }) code)
  have hstate := matches_set (a := { a with serverIp := .empty, address := .empty }) code NETDB_SUCCESS
  exact ⟨fun h => absurd rfl h, fun _ => ⟨haddr, fun hm => h0 (hstate.mp hm).symm⟩⟩

/-- The address of the first record, with a success, is right when it is an A record. -/
theorem reflects_of_first {r : Record} {rs : List Record} {b : Agent} (haddr : b.address = r.addr)
    (hm : b.Matches NETDB_SUCCESS)
    (hrecords : ∀ x ∈ r :: rs, (x.type = ns_t_a ∧ ∃ addr, x.addr = .inet addr) ∨ (x.type ≠ ns_t_a ∧ x.addr = .empty)) :
    Reflects (.ok (r :: rs)) b ↔ r.type = ns_t_a := by
  constructor
  · rintro ⟨hfound, hnone⟩
    by_contra hne
    have hempty : b.address = .empty := by
      rcases hrecords r List.mem_cons_self with ⟨ha, -⟩ | ⟨-, he⟩
      · exact absurd ha hne
      · rw [haddr, he]
    by_cases hf : aRecords (.ok (r :: rs)) = []
    · exact (hnone hf).2 hm
    · obtain ⟨⟨x, hx, hxa⟩, -⟩ := hfound hf
      obtain ⟨hx, hxt⟩ := List.mem_filter.mp hx
      rcases hrecords x hx with ⟨-, addr, he⟩ | ⟨hno, -⟩
      · rw [hempty, he] at hxa
        cases hxa
      · exact hno (by simpa using hxt)
  · intro ha
    have hmem : r ∈ aRecords (.ok (r :: rs)) := List.mem_filter.mpr ⟨List.mem_cons_self, by simp [ha]⟩
    exact ⟨fun _ => ⟨⟨r, hmem, haddr⟩, hm⟩, fun h => absurd h (List.ne_nil_of_mem hmem)⟩

/-- For an agent without a server of its own, a refresh ends, with the address and the DNS state that the
    outcome of its query asks for, if and only if the query failed or its first record is an A record. --/
theorem refresh_reflects_iff (a : Agent) (hs : a.NoServer) (env : RefreshEnv) (hinit : env.init = true)
    (hq : Settled (query a.hostname env.answer)) :
    (∃ b, (a.refresh env).1.state? = some b ∧ Reflects (query a.hostname env.answer) b) ↔
      Usable (query a.hostname env.answer) := by
  rw [refresh_eq (hs.resolveServer env) (hs.connect hinit)]
  rcases hq with ⟨records, hrec⟩ | ⟨code, h0, herr⟩
  · have haddrs := addr_of_query hrec
    rw [hrec]
    cases records with
    | nil =>
      refine iff_of_false (by simp) fun hu => ?_
      obtain ⟨r, rs, h, -⟩ := hu [] rfl
      cases h
    | cons r rs =>
      obtain ⟨b, hb, haddr, hstate⟩ := refreshIp_cases ({ a with address := r.addr }.set NETDB_SUCCESS).1 env.start
      have haddr' : b.address = r.addr :=
        haddr.trans (congrArg Ip.Agent.address (set_toAgent (a := { a with address := r.addr }) NETDB_SUCCESS))
      have hm : b.Matches NETDB_SUCCESS := by
        have := (matches_set (a := { a with address := r.addr }) NETDB_SUCCESS NETDB_SUCCESS).mpr rfl
        unfold Agent.Matches at this ⊢
        rwa [hstate]
      have hfirst := reflects_of_first haddr' hm haddrs
      constructor
      · rintro ⟨c, hc, hr⟩ _ ⟨⟩
        change (Agent.refreshIp _ env.start).state? = some c at hc
        rw [hb] at hc
        cases hc
        exact ⟨r, rs, rfl, hfirst.mp hr⟩
      · intro hu
        obtain ⟨_, _, ⟨⟩, ha⟩ := hu _ rfl
        exact ⟨b, hb, hfirst.mpr ha⟩
  · rw [herr]
    refine iff_of_true ⟨_, rfl, reflects_of_error code h0⟩ fun records h => ?_
    cases h

/-- An answer with a CNAME before the A record: the agent has no address, and the state of a success. --/
theorem cname_first :
    ¬ ∀ (a : Agent) (env : RefreshEnv), a.NoServer → env.init = true → Settled (query a.hostname env.answer) →
      ∃ b, (a.refresh env).1.state? = some b ∧ Reflects (query a.hostname env.answer) b := by
  intro h
  let a : Agent := { hostname := "www" }
  let env : RefreshEnv := { answer := .response [{ type := 5, rdata := [] }, { type := 1, rdata := [127, 0, 0, 1] }] }
  obtain ⟨b, hb, hr⟩ := h a env ⟨rfl, rfl⟩ rfl (Or.inl ⟨_, rfl⟩)
  have hrun : (a.refresh env).1.state?.map (·.address) = some .empty := by decide
  rw [hb] at hrun
  have hempty : b.address = .empty := Option.some.inj hrun
  have hfound : aRecords (query a.hostname env.answer) = [{ type := 1, addr := .inet 0x0100007F }] := by decide
  rw [Reflects, hfound] at hr
  obtain ⟨⟨r, hmem, haddr⟩, -⟩ := hr.1 (by simp)
  rw [hempty, List.mem_singleton.mp hmem] at haddr
  cases haddr

/-- An answer with one A record. --/
theorem reflects_localhost :
    let a : Agent := { hostname := "localhost" }
    let env : RefreshEnv := { answer := .response [{ type := 1, rdata := [127, 0, 0, 1] }] }
    ∃ b, (a.refresh env).1.state? = some b ∧ Reflects (query a.hostname env.answer) b := by
  intro a env
  refine (refresh_reflects_iff a ⟨rfl, rfl⟩ env rfl (Or.inl ⟨_, rfl⟩)).mpr fun records h => ?_
  have hquery : query a.hostname env.answer = .ok [{ type := 1, addr := .inet 0x0100007F }] := rfl
  rw [hquery] at h
  cases h
  exact ⟨_, _, rfl, rfl⟩

end UdjatNetwork.Dns
