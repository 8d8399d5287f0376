import UdjatNetwork.Theorems.LostAddress

/-! # ICMP states without an address

When an agent loses its address, its ICMP state should go too. Only `IP::Agent::refresh` does something
about it: for an agent that has a subnet state it calls `set(invalid)`, which returns at once. -/

namespace UdjatNetwork.Ip
open Machine

/-- The agent has no ICMP state, or one for `invalid`. -/
def Agent.NoResult (a : Agent) : Prop := ∀ st ∈ a.icmpState, st.id = .invalid

/-- A call that reports no result keeps what the agent knows of ICMP. -/
def Quiet (a b : Agent) : Prop := b.response = a.response ∧ b.icmpState = a.icmpState

/-- A kind of agents built on `IP::Agent`, as a machine: which inputs are results, when a refresh returns, which
    ICMP states `computeState` may return, and on which inputs a refresh ends without an address. -/
structure Family (σ ι : Type) where
  step : σ → ι → Option σ
  ip : σ → Agent
  result : ι → Option Icmp.Response
  Returns : σ → ι → σ → Prop
  Computes : σ → Icmp.State → Prop
  Loses : σ → ι → Prop
  step_of_returns : ∀ {s i t}, Returns s i t → step s i = some t ∧ result i = none
  quiet : ∀ {s i t}, step s i = some t → result i = none → (ip s).response = .invalid → Quiet (ip s) (ip t)
  reports : ∀ {s i t r}, step s i = some t → result i = some r → ∃ source, ip t = (ip s).result r source
  computed : ∀ {s st}, Computes s st → (ip s).icmpState = some st
  lost : ∀ {s i}, (∃ t, Returns s i t ∧ (ip t).address.isEmpty = true) ↔ Loses s i

namespace Family
variable {σ ι : Type} (F : Family σ ι)

/-- Whenever a refresh returns without an address, the agent has no result of ICMP, nor does it compute one. -/
def Clears (s : σ) (is : List ι) : Prop :=
  ∀ before i after, is = before ++ i :: after → ∀ t u, exec F.step s before = some t → F.Returns t i u →
    (F.ip u).address.isEmpty = true → (F.ip u).NoResult ∧ ∀ st, F.Computes u st → st.id = .invalid

/-- No refresh loses the address, or finds none, after a result other than `invalid`. -/
def KeepsAddress (s : σ) (is : List ι) : Prop :=
  ∀ before i after, is = before ++ i :: after → ∀ t, exec F.step s before = some t → F.Loses t i →
    ∀ j ∈ before, ∀ r, F.result j = some r → r = .invalid

/-- What an agent remembers of the inputs: it has no state before the first result other than `invalid`, and
    one with a result from then on. -/
def Remembers (is : List ι) (s : σ) : Prop :=
  (F.ip s).response = .invalid ∧ (∀ st ∈ (F.ip s).icmpState, st.id ≠ .invalid) ∧
    ((F.ip s).icmpState = none ↔ ∀ j ∈ is, ∀ r, F.result j = some r → r = .invalid)

variable {F}

theorem remembers_step {is : List ι} {s t : σ} {i : ι} (h : F.Remembers is s) (ht : F.step s i = some t) :
    F.Remembers (is ++ [i]) t := by
  obtain ⟨hresp, hids, hnone⟩ := h
  have hlast : (∀ j ∈ is ++ [i], ∀ r, F.result j = some r → r = .invalid) ↔
      (∀ j ∈ is, ∀ r, F.result j = some r → r = .invalid) ∧ ∀ r, F.result i = some r → r = .invalid := by
    simp [or_imp, forall_and]
  cases hr : F.result i with
  | none =>
    obtain ⟨h1, h2⟩ := F.quiet ht hr hresp
    refine ⟨h1.trans hresp, by rwa [h2], ?_⟩
    rw [hlast, h2, hnone]
    simp [hr]
  | some r =>
    obtain ⟨source, hip⟩ := F.reports ht hr
    by_cases hinv : r = .invalid
    · have hset : (F.ip s).set r source = F.ip s := by rw [set_eq, hresp, if_pos hinv]
      have hstate : (F.ip t).icmpState = (F.ip s).icmpState := by rw [hip, Agent.result, hset]
      refine ⟨by rw [hip, Agent.result, hset]; exact hresp, by rwa [hstate], ?_⟩
      rw [hlast, hstate, hnone]
      simp [hr, hinv]
    · have hstate : (F.ip t).icmpState = (F.ip s).stateFor r := by
        rw [hip, Agent.result, set_eq, hresp, if_neg hinv]
      obtain ⟨st, hst, hid⟩ := stateFor_id (F.ip s) r
      rw [hst] at hstate
      refine ⟨by rw [hip, Agent.result, ← hresp]; exact set_response _ _, fun x hx => ?_, ?_⟩
      · rw [hstate] at hx
        cases hx
        rwa [hid]
      · rw [hlast, hstate]
        simp [hr, hinv]

theorem clears_iff {s : σ} (h0 : (F.ip s).response = .invalid ∧ (F.ip s).icmpState = none) (is : List ι) :
    F.Clears s is ↔ F.KeepsAddress s is := by
  have key : ∀ {before t i u}, exec F.step s before = some t → F.Returns t i u →
      (((F.ip u).NoResult ∧ ∀ st, F.Computes u st → st.id = .invalid) ↔
        ∀ j ∈ before, ∀ r, F.result j = some r → r = .invalid) := by
    intro before t i u ht hret
    obtain ⟨hresp, hids, hnone⟩ : F.Remembers before t :=
      exec_induct ⟨h0.1, by simp [h0.2], by simp [h0.2]⟩ (fun _ _ _ _ => remembers_step) ht
    obtain ⟨hstep, hres⟩ := F.step_of_returns hret
    obtain ⟨-, hstate⟩ := F.quiet hstep hres hresp
    rw [← hnone, ← hstate]
    constructor
    · rintro ⟨hno, -⟩
      cases hst : (F.ip u).icmpState with
      | none => rfl
      | some st => exact absurd (hno st hst) (hids st (hstate ▸ hst))
    · intro hn
      refine ⟨fun st hst => ?_, fun st hst => ?_⟩
      · rw [hn] at hst
        cases hst
      · rw [F.computed hst] at hn
        cases hn
  constructor
  · intro hc before i after his t ht hlost
    obtain ⟨u, hret, hempty⟩ := F.lost.mpr hlost
    exact (key ht hret).mp (hc before i after his t u ht hret hempty)
  · intro hk before i after his t u ht hret hempty
    exact (key ht hret).mpr (hk before i after his t ht (F.lost.mp ⟨u, hret, hempty⟩))

end Family

/-! ### The agents -/

variable {a b : Agent}

theorem refresh_quiet {start : Bool} (ha : a.response = .invalid) (hb : (a.refresh start).state? = some b) :
    Quiet a b := by
  obtain ⟨c, hc, rfl | ⟨-, rfl⟩ | ⟨-, rfl⟩⟩ := refresh_cases a start <;> rw [hc] at hb <;> cases hb
  · exact ⟨rfl, rfl⟩
  · rw [set_eq, if_pos ha.symm]
    exact ⟨rfl, rfl⟩
  · exact ⟨rfl, rfl⟩

theorem computeState_quiet (a : Agent) (base : Level) (ifaces : Option (List Interface)) :
    Quiet a (a.computeState base ifaces).1 := by
  unfold Agent.computeState
  split <;> exact ⟨rfl, rfl⟩

theorem max_eq_icmp {state : Computed} {other : Option Computed} {st : Icmp.State}
    (h : state.max other = .icmp st) : state = .icmp st ∨ other = some (.icmp st) := by
  unfold Computed.max at h
  split at h
  · split_ifs at h
    · exact Or.inr (congrArg some h)
    · exact Or.inl h
  · exact Or.inl h

/-- An ICMP state that `computeState` returns is the one of the agent. -/
theorem computeState_icmp {base : Level} {ifaces : Option (List Interface)} {st : Icmp.State}
    (h : (a.computeState base ifaces).2 = some (.icmp st)) : a.icmpState = some st := by
  unfold Agent.computeState at h
  split at h
  · cases h
  · rename_i ipStates ipState _
    rcases max_eq_icmp (Option.some.inj h) with hmax | hicmp
    · rcases max_eq_icmp hmax with hbase | hip
      · cases hbase
      · cases ipState <;> cases hip
    · obtain ⟨st', hst', he⟩ := Option.map_eq_some_iff.mp hicmp
      cases he
      exact hst'

def Agent.family : Family Agent Agent.Input where
  step := Agent.step
  ip := id
  result := fun | .result response _ => some response | _ => none
  Returns := fun a i b => ∃ start, i = .refresh start ∧ a.refresh start = .ok b
  Computes := fun a st => ∃ base ifaces, (a.computeState base ifaces).2 = some (.icmp st)
  Loses := fun a i => ∃ start, i = .refresh start ∧ a.address.isEmpty = true
  step_of_returns := by
    rintro a _ b ⟨start, rfl, hb⟩
    exact ⟨by simp [Agent.step, hb], rfl⟩
  quiet := by
    intro a i b hb hi ha
    cases i with
    | refresh start => exact refresh_quiet ha hb
    | result response source => cases hi
    | computeState base ifaces =>
      cases hb
      exact computeState_quiet a base ifaces
    | address addr =>
      cases hb
      exact ⟨rfl, rfl⟩
  reports := by
    intro a i b r hb hi
    cases i with
    | result response source =>
      cases hi
      simp only [Agent.step] at hb
      split_ifs at hb
      cases hb
      exact ⟨source, rfl⟩
    | _ => cases hi
  computed := fun ⟨_, _, h⟩ => computeState_icmp h
  lost := by
    intro a i
    constructor
    · rintro ⟨b, ⟨start, rfl, hb⟩, hempty⟩
      exact ⟨start, rfl, (refresh_lost a start).mp ⟨b, hb, hempty⟩⟩
    · rintro ⟨start, rfl, hlost⟩
      obtain ⟨b, hb, hempty⟩ := (refresh_lost a start).mpr hlost
      exact ⟨b, ⟨start, rfl, hb⟩, hempty⟩

theorem Gateway.detect_quiet (g : Gateway) (env : DetectEnv) {t : Gateway} (ht : (g.detect env).1.state? = some t) :
    Quiet g.toAgent t.toAgent := by
  unfold Gateway.detect at ht
  split_ifs at ht
  · cases ht
    exact ⟨rfl, rfl⟩
  · split at ht
    · cases ht
      exact ⟨rfl, rfl⟩
    · split at ht
      · cases ht
        exact ⟨rfl, rfl⟩
      · split_ifs at ht <;> cases ht <;> exact ⟨rfl, rfl⟩

theorem Gateway.refreshIp_quiet {g t : Gateway} {start : Bool} (hg : g.response = .invalid)
    (ht : (g.refreshIp start).state? = some t) : Quiet g.toAgent t.toAgent := by
  unfold Gateway.refreshIp at ht
  split at ht <;> rename_i hr <;> cases ht <;> exact refresh_quiet hg (by rw [hr]; rfl)

theorem Gateway.refresh_quiet {g t : Gateway} {env : DetectEnv} {start : Bool} (hg : g.response = .invalid)
    (ht : (g.refresh env start).1.state? = some t) : Quiet g.toAgent t.toAgent := by
  unfold Gateway.refresh at ht
  split at ht
  · rename_i u _ hu
    obtain ⟨h1, h2⟩ := g.detect_quiet env (t := u) (by rw [hu]; rfl)
    obtain ⟨h3, h4⟩ := Gateway.refreshIp_quiet (h1.trans hg) ht
    exact ⟨h3.trans h1, h4.trans h2⟩
  · exact g.detect_quiet env ht

def Gateway.family : Family Gateway Gateway.Input where
  step := Gateway.step
  ip := Gateway.toAgent
  result := fun | .result response _ => some response | _ => none
  Returns := fun g i t => ∃ env start, i = .refresh env start ∧ (g.refresh env start).1 = .ok t
  Computes := fun g st => ∃ base ifaces, (g.toAgent.computeState base ifaces).2 = some (.icmp st)
  Loses := fun _ i => ∃ env start, i = .refresh env start ∧ NoGateway env
  step_of_returns := by
    rintro g _ t ⟨env, start, rfl, ht⟩
    exact ⟨by simp [Gateway.step, ht], rfl⟩
  quiet := by
    intro g i t ht hi hg
    cases i with
    | refresh env start => exact Gateway.refresh_quiet hg ht
    | result response source => cases hi
    | computeState base ifaces =>
      cases ht
      exact computeState_quiet g.toAgent base ifaces
    | address addr =>
      cases ht
      exact ⟨rfl, rfl⟩
  reports := by
    intro g i t r ht hi
    cases i with
    | result response source =>
      cases hi
      simp only [Gateway.step] at ht
      split_ifs at ht
      cases ht
      exact ⟨source, rfl⟩
    | _ => cases hi
  computed := fun ⟨_, _, h⟩ => computeState_icmp h
  lost := by
    intro g i
    constructor
    · rintro ⟨t, ⟨env, start, rfl, ht⟩, hempty⟩
      exact ⟨env, start, rfl, (g.refresh_lost env start).mp ⟨t, ht, hempty⟩⟩
    · rintro ⟨env, start, rfl, hlost⟩
      obtain ⟨t, ht, hempty⟩ := (g.refresh_lost env start).mpr hlost
      exact ⟨t, ⟨env, start, rfl, ht⟩, hempty⟩

end UdjatNetwork.Ip

namespace UdjatNetwork.Dns
open Machine Ip

variable {a b : Agent}

theorem resolveServer_toAgent {env : RefreshEnv} (h : a.resolveServer env = .ok (some b)) :
    b.toAgent = a.toAgent := by
  unfold Agent.resolveServer at h
  split_ifs at h
  · rcases hq : (connect env.serverInit .empty).bind fun _ => query (a.serverName.getD "") env.serverAnswer with
      e | (_ | ⟨r, rs⟩) <;> rw [hq] at h <;> cases h
    rfl
  · cases h
    rfl

theorem resolveHost_toAgent {env : RefreshEnv} (h : a.resolveHost env = .ok (some b)) :
    ∃ address, b.toAgent = { a.toAgent with address } := by
  unfold Agent.resolveHost at h
  rcases hq : (connect env.init a.serverIp).bind fun _ => query a.hostname env.answer with
    e | (_ | ⟨r, rs⟩) <;> rw [hq] at h <;> cases h
  exact ⟨_, rfl⟩

theorem caught_quiet {e : Error} (hb : (a.caught e).1.state? = some b) : Quiet a.toAgent b.toAgent := by
  cases e with
  | dns code =>
    cases hb
    rw [set_toAgent]
    exact ⟨rfl, rfl⟩
  | other =>
    cases hb
    exact ⟨rfl, rfl⟩

theorem refreshIp_quiet {start : Bool} (ha : a.response = .invalid) (hb : (a.refreshIp start).state? = some b) :
    Quiet a.toAgent b.toAgent := by
  unfold Agent.refreshIp at hb
  split at hb <;> rename_i hr <;> cases hb <;> exact Ip.refresh_quiet ha (by rw [hr]; rfl)

theorem refresh_quiet {env : RefreshEnv} (ha : a.response = .invalid) (hb : (a.refresh env).1.state? = some b) :
    Quiet a.toAgent b.toAgent := by
  unfold Agent.refresh at hb
  split at hb
  · exact caught_quiet hb
  · cases hb
  · rename_i c hc
    have hserver := resolveServer_toAgent hc
    split at hb
    · have hq := caught_quiet hb
      rwa [hserver] at hq
    · cases hb
    · rename_i d hd
      obtain ⟨address, hhost⟩ := resolveHost_toAgent hd
      have hset : (d.set NETDB_SUCCESS).1.toAgent = { a.toAgent with address } := by
        rw [set_toAgent, hhost, hserver]
      have hq := refreshIp_quiet (by rw [hset]; exact ha) hb
      rwa [hset] at hq

/-- The state is the one of the DNS, or what the IP agent computes. -/
theorem computeState_cases (a : Agent) (base : Level) (ifaces : Option (List Interface)) :
    (a.computeState base ifaces).1.toAgent = (a.toAgent.computeState base ifaces).1 ∧
      ∀ c, (a.computeState base ifaces).2 = some (.inl c) → (a.toAgent.computeState base ifaces).2 = some c := by
  unfold Agent.computeState
  rcases a.toAgent.computeState base ifaces with ⟨ip, _ | state⟩
  · exact ⟨rfl, fun c hc => by cases hc⟩
  · cases hst : a.dnsState with
    | none => exact ⟨rfl, fun c hc => by simpa using hc⟩
    | some st =>
      refine ⟨rfl, fun c hc => ?_⟩
      simp only [Option.some.injEq] at hc
      split_ifs at hc
      cases hc
      rfl

def Agent.family : Family Agent Agent.Input where
  step := Agent.step
  ip := Agent.toAgent
  result := fun | .result response _ => some response | _ => none
  Returns := fun a i b => ∃ env, i = .refresh env ∧ (a.refresh env).1 = .ok b
  Computes := fun a st => ∃ base ifaces, (a.computeState base ifaces).2 = some (.inl (.icmp st))
  Loses := fun a i => ∃ env, i = .refresh env ∧ a.LosesAddress env
  step_of_returns := by
    rintro a _ b ⟨env, rfl, hb⟩
    exact ⟨by simp [Agent.step, hb], rfl⟩
  quiet := by
    intro a i b hb hi ha
    cases i with
    | refresh env => exact refresh_quiet ha hb
    | result response source => cases hi
    | computeState base ifaces =>
      cases hb
      rw [(computeState_cases a base ifaces).1]
      exact computeState_quiet a.toAgent base ifaces
    | address addr =>
      cases hb
      exact ⟨rfl, rfl⟩
  reports := by
    intro a i b r hb hi
    cases i with
    | result response source =>
      cases hi
      simp only [Agent.step] at hb
      split_ifs at hb
      cases hb
      exact ⟨source, rfl⟩
    | _ => cases hi
  computed := fun ⟨base, ifaces, h⟩ => computeState_icmp ((computeState_cases _ base ifaces).2 _ h)
  lost := by
    intro a i
    constructor
    · rintro ⟨b, ⟨env, rfl, hb⟩, hempty⟩
      exact ⟨env, rfl, (refresh_lost a env).mp ⟨b, hb, hempty⟩⟩
    · rintro ⟨env, rfl, hlost⟩
      obtain ⟨b, hb, hempty⟩ := (refresh_lost a env).mpr hlost
      exact ⟨b, ⟨env, rfl, hb⟩, hempty⟩

end UdjatNetwork.Dns

namespace UdjatNetwork.Ip
open Machine

/-- The agent before its first call: whatever its configuration, no worker runs and no state is known. -/
def Agent.fresh (a : Agent) : Agent :=
  { a with running := false, response := .invalid, icmpState := none, ipState := none }

/-- In every run of an `IP::Agent`, a `DNS::Agent` or an `IP::Gateway`, the agent has no result of ICMP
    whenever a refresh returns without an address, if and only if no refresh of an `IP::Agent` finds no
    address, none of a `DNS::Agent` gets no A record, and none of an `IP::Gateway` no gateway, after a result. --/
theorem no_stale_state_iff (a : Agent) (is : List Agent.Input) (d : Dns.Agent) (js : List Dns.Agent.Input)
    (g : Gateway) (ks : List Gateway.Input) :
    (Agent.family.Clears a.fresh is ↔ Agent.family.KeepsAddress a.fresh is) ∧
    (Dns.Agent.family.Clears { d with toAgent := d.toAgent.fresh } js ↔
      Dns.Agent.family.KeepsAddress { d with toAgent := d.toAgent.fresh } js) ∧
    (Gateway.family.Clears { g with toAgent := g.toAgent.fresh } ks ↔
      Gateway.family.KeepsAddress { g with toAgent := g.toAgent.fresh } ks) :=
  ⟨Family.clears_iff ⟨rfl, rfl⟩ is, Family.clears_iff ⟨rfl, rfl⟩ js, Family.clears_iff ⟨rfl, rfl⟩ ks⟩

/-- A host that answered, and is not found any more: its state is still the one of the echo reply. --/
theorem stale_after_failure :
    ¬ ((∀ (a : Agent) (is : List Agent.Input), Agent.family.Clears a.fresh is) ∧
      (∀ (a : Dns.Agent) (is : List Dns.Agent.Input),
        Dns.Agent.family.Clears { a with toAgent := a.toAgent.fresh } is) ∧
      (∀ (g : Gateway) (is : List Gateway.Input),
        Gateway.family.Clears { g with toAgent := g.toAgent.fresh } is)) := by
  rintro ⟨-, h, -⟩
  let a : Dns.Agent := { hostname := "localhost" }
  let found : Dns.RefreshEnv := { answer := .response [{ type := 1, rdata := [127, 0, 0, 1] }] }
  let lost : Dns.RefreshEnv := { answer := .failed Dns.HOST_NOT_FOUND }
  let stale : Icmp.State := ⟨"echo-reply", .ready, .echoReply⟩
  have hrun : (exec Dns.Agent.step a [.refresh found, .result .echoReply (.inet 0x0100007F)]).map
      (fun b => (b.refresh lost).1) = some (.ok { a with
        icmpState := some stale, updates := 1, dnsState := some ⟨"host-not-found", .error, 1⟩ }) := by decide
  obtain ⟨b, hb, hc⟩ := Option.map_eq_some_iff.mp hrun
  have hclear := h a [.refresh found, .result .echoReply (.inet 0x0100007F), .refresh lost]
    [.refresh found, .result .echoReply (.inet 0x0100007F)] (.refresh lost) [] rfl b _ hb ⟨lost, rfl, hc⟩ rfl
  exact absurd (hclear.1 stale rfl) (by decide)

end UdjatNetwork.Ip
