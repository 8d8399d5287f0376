import UdjatNetwork.Theorems.Changes

/-! # An agent with a server of its own

It is compared with the same agent without a server, refresh by refresh. A `Resolver` for an IPv4 server always
throws, so that the server is never asked; only an answer for the server that begins without an address makes the
agent do what the other one does. -/

namespace UdjatNetwork.Dns
open Machine Agent

variable {p : Agent} {env : RefreshEnv} {name : String}

/-- The agent, configured with a server. -/
def Agent.withServer (name : String) (p : Agent) : Agent := { p with serverName := some name }

/-- The system resolves the name of the server to an IPv4 address. -/
def Resolves (name : String) (env : RefreshEnv) : Prop :=
  env.serverInit = true ∧ ∃ records, query name env.serverAnswer = .ok records ∧ ∃ r ∈ records, r.type = ns_t_a

/-- The first agent returns from the refresh, and has the address and the DNS state that the second one has. -/
def Agrees (cp : Agent × Agent) : Input → Prop
  | .refresh env => ∃ c' p', (cp.1.refresh env).1 = .ok c' ∧ (cp.2.refresh env).1.state? = some p' ∧
      c'.address = p'.address ∧ c'.dnsState = p'.dnsState
  | _ => True

/-- The queries of a refresh fail by a `DNS::Exception`, or bring a record with which `IP::Agent::refresh` returns. -/
def Agent.Returns (p : Agent) (env : RefreshEnv) : Prop :=
  Failed (p.outcome env) ∨ ∃ r rs, p.outcome env = .ok (r :: rs) ∧ p.Starts r.addr env

/-- The answer for the server begins with a record that is no A record, and the agent returns without a server. -/
def Agent.Unused (name : String) (p : Agent) : Input → Prop
  | .refresh env => FirstOther (query name env.serverAnswer) ∧ p.Returns env
  | _ => True

/-! ### The same agent, but for the name of a server -/

theorem set_withServer (p : Agent) (code : Int) :
    (p.withServer name).set code = ((p.set code).1.withServer name, (p.set code).2) := by
  unfold Agent.set Agent.withServer
  dsimp only
  split_ifs
  · rfl
  · split <;> rfl

theorem refreshIp_withServer (p : Agent) (start : Bool) :
    (p.withServer name).refreshIp start = (p.refreshIp start).map (withServer name) := by
  unfold Agent.refreshIp Agent.withServer
  dsimp only
  cases p.toAgent.refresh start <;> rfl

theorem caught_withServer (p : Agent) (e : Error) :
    (p.withServer name).caught e = ((p.caught e).1.map (withServer name), (p.caught e).2) := by
  cases e with
  | dns code =>
    have hset : (withServer name { p with serverIp := .empty, address := .empty }).set code = _ := set_withServer _ code
    exact congrArg (fun r : Agent × Bool => (Outcome.ok r.1, r.2)) hset
  | other => rfl

theorem step_withServer {i : Input} (hi : ∀ env, i ≠ .refresh env) :
    (p.withServer name).step i = (p.step i).map (withServer name) := by
  cases i with
  | refresh env => exact absurd rfl (hi env)
  | result response source =>
    unfold Agent.step Agent.withServer
    dsimp only
    split_ifs <;> rfl
  | computeState base ifaces =>
    unfold Agent.step Agent.computeState Agent.withServer
    dsimp only
    rcases p.toAgent.computeState base ifaces with ⟨ip, _ | state⟩
    · rfl
    · cases p.dnsState <;> rfl
  | address addr => rfl

/-! ### The refresh -/

theorem Agent.NoServer.outcome (hs : p.NoServer) : p.outcome env = p.hostQuery env := by
  unfold Agent.outcome
  rw [if_neg fun h => h.1 hs.1, hs.2]
  rfl

/-- The query for the server brings a first record; with an address, the resolver for it throws. -/
theorem outcome_withServer (hs : p.NoServer) (hr : Resolves name env) :
    (FirstOther (query name env.serverAnswer) → (p.withServer name).outcome env = p.outcome env) ∧
    (¬ FirstOther (query name env.serverAnswer) → (p.withServer name).outcome env = .error .other) := by
  obtain ⟨hinit, records, hq, r, hmem, -⟩ := hr
  have hname : name ≠ "" := by
    rintro rfl
    cases hq
  have hasks : (p.withServer name).AsksServer := ⟨hname, by simp [Agent.withServer, hs.2, Address.isEmpty]⟩
  obtain ⟨r, rs, rfl⟩ := List.exists_cons_of_ne_nil (List.ne_nil_of_mem hmem)
  have hquery : query ((p.withServer name).serverName.getD "") env.serverAnswer = .ok (r :: rs) := hq
  rw [firstOther_cons hq, hs.outcome]
  unfold Agent.outcome
  rw [if_pos hasks, if_pos hinit, hquery]
  exact ⟨fun hempty => if_pos hempty, fun hempty => if_neg hempty⟩

/-- After an answer for the server that begins without an address, the agent does what it does without a server. -/
theorem refresh_withServer (hs : p.NoServer) (hr : Resolves name env) (hf : FirstOther (query name env.serverAnswer)) :
    ((p.withServer name).refresh env).1 = (p.refresh env).1.map (withServer name) := by
  rw [refresh_spec, refresh_spec, (outcome_withServer hs hr).1 hf]
  rcases p.outcome env with e | (_ | ⟨r, rs⟩)
  · exact congrArg Prod.fst (caught_withServer p e)
  · rfl
  · have hset : (withServer name { p with serverIp := .empty, address := r.addr }).set NETDB_SUCCESS = _ :=
      set_withServer _ NETDB_SUCCESS
    refine (congrArg (fun r : Agent × Bool => r.1.refreshIp env.start) hset).trans ?_
    exact refreshIp_withServer _ env.start

theorem refresh_withServer_other (hs : p.NoServer) (hr : Resolves name env)
    (hf : ¬ FirstOther (query name env.serverAnswer)) : ∃ b, ((p.withServer name).refresh env).1 = .threw b := by
  rw [refresh_spec, (outcome_withServer hs hr).2 hf]
  exact ⟨_, rfl⟩

theorem returns_iff (p : Agent) (env : RefreshEnv) : (∃ b, (p.refresh env).1 = .ok b) ↔ p.Returns env := by
  unfold Agent.Returns
  rcases ho : p.outcome env with (code | _) | (_ | ⟨r, rs⟩)
  · have hrefresh : (p.refresh env).1 = (p.caught (.dns code)).1 := by rw [refresh_spec, ho]
    rw [hrefresh]
    exact iff_of_true ⟨_, rfl⟩ (Or.inl ⟨code, rfl⟩)
  · rw [refresh_spec, ho]
    simp [Agent.caught]
  · rw [refresh_spec, ho]
    simp
  · rw [(success_cases ho).2.1]
    simp

theorem agrees_iff (hs : p.NoServer) (hr : Resolves name env) :
    Agrees (p.withServer name, p) (.refresh env) ↔ p.Unused name (.refresh env) := by
  simp only [Agrees, Agent.Unused]
  rw [← returns_iff]
  by_cases hf : FirstOther (query name env.serverAnswer)
  · have hrefresh := refresh_withServer hs hr hf
    constructor
    · rintro ⟨c', p', hc, hp, -⟩
      refine ⟨hf, ?_⟩
      rw [hrefresh] at hc
      cases hd : (p.refresh env).1 with
      | ok b => exact ⟨b, rfl⟩
      | threw b => rw [hd] at hc; cases hc
      | undefined => rw [hd] at hc; cases hc
    · rintro ⟨-, b, hb⟩
      rw [hb] at hrefresh
      exact ⟨_, b, hrefresh, by rw [hb]; rfl, rfl, rfl⟩
  · obtain ⟨b, hb⟩ := refresh_withServer_other hs hr hf
    refine iff_of_false ?_ fun h => hf h.1
    rintro ⟨c', p', hc, -⟩
    rw [hb] at hc
    cases hc

/-! ### Repeated refreshes -/

theorem set_noServer (hs : p.NoServer) (code : Int) : (p.set code).1.NoServer := by
  unfold Agent.set
  split_ifs
  · exact hs
  · split <;> exact hs

theorem refreshIp_noServer (hs : p.NoServer) {start : Bool} {b : Agent} (hb : (p.refreshIp start).state? = some b) :
    b.NoServer := by
  unfold Agent.refreshIp at hb
  cases hr : p.toAgent.refresh start <;> rw [hr] at hb <;> cases hb <;> exact hs

theorem refresh_noServer (hs : p.NoServer) {b : Agent} (hb : (p.refresh env).1.state? = some b) : b.NoServer := by
  rw [refresh_spec] at hb
  rcases ho : p.outcome env with (code | _) | (_ | ⟨r, rs⟩) <;> rw [ho] at hb
  · cases hb
    exact set_noServer (p := { p with serverIp := .empty, address := .empty }) ⟨hs.1, rfl⟩ code
  · cases hb
    exact ⟨hs.1, rfl⟩
  · cases hb
  · exact refreshIp_noServer
      (set_noServer (p := { p with serverIp := .empty, address := r.addr }) ⟨hs.1, rfl⟩ NETDB_SUCCESS) hb

theorem noServer_step {i : Input} {b : Agent} (hs : p.NoServer) (hb : p.step i = some b) : b.NoServer := by
  cases i with
  | refresh env => exact refresh_noServer hs hb
  | result response source =>
    unfold Agent.step at hb
    dsimp only at hb
    split_ifs at hb
    cases hb
    exact hs
  | computeState base ifaces =>
    cases hb
    unfold Agent.computeState
    rcases p.toAgent.computeState base ifaces with ⟨ip, _ | state⟩
    · exact hs
    · dsimp only
      split <;> exact hs
  | address addr =>
    cases hb
    exact hs

/-- While the system resolves the name of its server, an agent does in every refresh what it does without the
    server, if and only if each answer for the server begins with a record that is no A record, and each refresh
    without the server returns. --/
theorem server_agrees_iff (p : Agent) (hs : p.NoServer) (name : String) (is : List Input)
    (hr : ∀ env, .refresh env ∈ is → Resolves name env) :
    Along (pair step step) Agrees (p.withServer name, p) is ↔ Along step (Unused name) p is := by
  have hO : ∀ i ∈ is, ∀ env, i = .refresh env → Resolves name env := fun i hi env he => hr env (he ▸ hi)
  refine along_pair_iff (I := NoServer) (fun _ _ _ h hb => noServer_step h hb) ?_ ?_ hs hO
  · intro q i hq hi
    cases i with
    | refresh env => exact agrees_iff hq (hi env rfl)
    | _ => exact Iff.rfl
  · intro q i hq hi hu
    cases i with
    | refresh env =>
      have hrefresh := congrArg Outcome.state? (refresh_withServer hq (hi env rfl) hu.1)
      rwa [Outcome.state?_map] at hrefresh
    | _ => exact step_withServer fun _ h => by cases h

/-- The server is the machine itself. --/
theorem server_throws :
    ¬ ∀ (p : Agent) (name : String) (is : List Input), p.NoServer → (∀ env, .refresh env ∈ is → Resolves name env) →
      Along (pair step step) Agrees (p.withServer name, p) is := by
  intro h
  let found : Answer := .response [{ type := 1, rdata := [127, 0, 0, 1] }]
  let env : RefreshEnv := { serverAnswer := found, answer := found }
  have hr : Resolves "localhost" env := ⟨rfl, _, rfl, ⟨1, .inet 0x0100007F⟩, List.mem_singleton_self _, rfl⟩
  have hs : Agent.NoServer { hostname := "www" } := ⟨rfl, rfl⟩
  have hall : ∀ e, Input.refresh e ∈ [Input.refresh env] → Resolves "localhost" e := by
    rintro e he
    cases List.mem_singleton.mp he
    exact hr
  have hagrees := (h { hostname := "www" } "localhost" [.refresh env] hs hall).1
  obtain ⟨⟨r, rs, hq, hne⟩, -⟩ := (agrees_iff hs hr).mp hagrees
  cases hq
  exact hne rfl

/-- A server with an alias. --/
theorem server_agrees_alias :
    let cname : RR := { type := 5, rdata := [] }
    let host : RR := { type := 1, rdata := [127, 0, 0, 1] }
    let p : Agent := { hostname := "www" }
    let is : List Input := [.refresh { serverAnswer := .response [cname, host], answer := .response [host] }]
    Along (pair step step) Agrees (p.withServer "ns", p) is := by
  intro cname host p is
  refine (server_agrees_iff p ⟨rfl, rfl⟩ "ns" is ?_).mpr ⟨⟨?_, ?_⟩, fun _ _ => trivial⟩
  · rintro env he
    cases List.mem_singleton.mp he
    exact ⟨rfl, _, rfl, ⟨1, .inet 0x0100007F⟩, List.mem_cons_of_mem _ List.mem_cons_self, rfl⟩
  · exact ⟨⟨5, .empty⟩, _, rfl, by decide⟩
  · exact Or.inr ⟨⟨1, .inet 0x0100007F⟩, [], rfl, Or.inr (Or.inr (Or.inr rfl))⟩

end UdjatNetwork.Dns
