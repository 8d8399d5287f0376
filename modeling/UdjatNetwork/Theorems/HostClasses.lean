import UdjatNetwork.Theorems.Hosts

/-! # Hosts by themselves

Among the others, a host is the machine of its own class: the one that is refreshed with what the system gives to its
search, and is told the results of its own worker. -/

namespace UdjatNetwork.Ip
open Machine Hosts
open Icmp (WorkerId Event Sound)

variable {m t : Hosts} {w : WorkerId} {i : Input} {h u : Host} {a b : Agent}

/-- The call of the controller that a step may end with. -/
def Hosts.Input.call : Input → Option Icmp.Controller.Input
  | .refresh w env => some (.insert w env.insert)
  | .computeState _ _ _ => none
  | .address w addr => some (.address w addr)
  | .destroy w => some (.remove w)
  | .onTimer => some .onTimer
  | .task env => some (.task env)
  | .handleEvent oninput recv now => some (.handleEvent oninput recv now)

/-- No agent leaves its `set` by an exception, and no packet of an unexpected type takes a host from the list. -/
def Hosts.Faultless (m : Hosts) (i : Input) : Prop := ∀ c ∈ i.call, ¬ c.Throws ∧ ¬ m.controller.Loses c

/-- A call of a host, whatever comes of it. -/
inductive Host.Call where
  | refresh (env : Host.RefreshEnv)
  | computeState (base : Level) (ifaces : Option (List Interface))
  | address (addr : Address)

/-- The calls among the inputs of a host, and its results. -/
def Host.Input.calls : Host.Input → List Host.Call
  | .refresh env _ => [.refresh env]
  | .result _ _ => []
  | .computeState base ifaces => [.computeState base ifaces]
  | .address addr => [.address addr]

def Host.Input.results : Host.Input → List (Icmp.Response × Address)
  | .result response source => [(response, source)]
  | _ => []

/-- The calls of the host of a worker among the steps. -/
def hostCalls (w : WorkerId) : Input → List Host.Call
  | .refresh v env => if v = w then [.refresh env] else []
  | .computeState v base ifaces => if v = w then [.computeState base ifaces] else []
  | .address v addr => if v = w then [.address addr] else []
  | _ => []

/-- The call of the host of a worker that a step is. -/
def hostAsked (w : WorkerId) (m : Hosts) : Input → List Host.Input
  | .refresh v env => if v = w then [.refresh env (m.monitor.starts v env.insert)] else []
  | .computeState v base ifaces => if v = w then [.computeState base ifaces] else []
  | .address v addr => if v = w then [.address addr] else []
  | _ => []

/-- An event, as an input of the host of a worker. -/
def hostHeard (w : WorkerId) : Event → List Host.Input
  | .set _ v response source => if v = w then [.result response source] else []
  | _ => []

/-- What the host of a worker takes in a step: what it is asked, and then what it hears. -/
def hostInputs (w : WorkerId) (m : Hosts) (i : Input) : List Host.Input :=
  hostAsked w m i ++ ((m.step i).map fun t => (Monitor.news m.controller t.controller).flatMap (hostHeard w)).getD []

/-! ### One host -/

/-- What is found of a host changes the address of its IP part, and no more of it. -/
theorem locate_toAgent {env : Host.RefreshEnv} {goes : Bool} (hu : h.locate env = some (u, goes)) :
    ∃ address, u.toAgent = { h.toAgent with address } := by
  have caught : ∀ {d : Dns.Agent} {e : Dns.Error}, d.toAgent = h.toAgent →
      ((d.caught e).1.state?.map fun c => (Host.dns c, false)) = some (u, goes) →
      ∃ address, u.toAgent = { h.toAgent with address } := fun {d e} hd hu => by
    obtain ⟨c, hc, he⟩ := Option.map_eq_some_iff.mp hu
    cases he
    exact ⟨.empty, (Dns.caught_toAgent hc).trans (by rw [hd])⟩
  cases h with
  | ip a =>
    cases hu
    exact ⟨a.address, rfl⟩
  | gateway g =>
    rw [Host.locate] at hu
    obtain ⟨c, hc, hsame⟩ | ⟨c, changed, hc, hsame⟩ := detect_toAgent g env.detect <;> rw [hc] at hu <;> cases hu
    · exact ⟨g.address, hsame⟩
    · exact ⟨c.address, hsame⟩
  | dns d =>
    rw [Host.locate] at hu
    rcases hserver : d.resolveServer env.dns with e | _ | c <;> simp only [hserver] at hu
    · exact caught rfl hu
    · cases hu
    have hc := Dns.resolveServer_toAgent hserver
    rcases hhost : c.resolveHost env.dns with e | _ | b <;> simp only [hhost] at hu
    · exact caught hc hu
    · cases hu
    obtain ⟨address, hb⟩ := Dns.resolveHost_toAgent hhost
    cases hu
    refine ⟨address, ?_⟩
    change (b.set Dns.NETDB_SUCCESS).1.toAgent = { d.toAgent with address }
    rw [Dns.set_toAgent, hb, ← hc]

/-- The refresh of a host: its search, and then that of its IP part. -/
theorem step_refresh {env : Host.RefreshEnv} {goes : Bool} (hu : h.locate env = some (u, goes)) (start : Bool) :
    h.step (.refresh env start) =
      if goes then (u.toAgent.refresh start).state?.map u.withAgent else some u := by
  cases h with
  | ip a =>
    cases hu
    rfl
  | gateway g =>
    change (g.refresh env.detect start).1.state?.map Host.gateway = _
    rw [Host.locate] at hu
    unfold Gateway.refresh
    split at hu <;> rename_i c changed hc <;> cases hu <;> rw [hc]
    · dsimp only
      rw [if_pos rfl]
      unfold Gateway.refreshIp
      change _ = Option.map _ (c.toAgent.refresh start).state?
      cases c.toAgent.refresh start <;> rfl
    · rfl
  | dns d =>
    change (d.refresh { env.dns with start }).1.state?.map Host.dns = _
    have hservers : d.resolveServer { env.dns with start } = d.resolveServer env.dns := rfl
    have hhosts : ∀ c : Dns.Agent, c.resolveHost { env.dns with start } = c.resolveHost env.dns := fun _ => rfl
    rw [Host.locate] at hu
    unfold Dns.Agent.refresh
    rw [hservers]
    rcases hserver : d.resolveServer env.dns with e | _ | c <;> simp only [hserver] at hu ⊢
    · obtain ⟨b, hb, he⟩ := Option.map_eq_some_iff.mp hu
      cases he
      rw [hb]
      rfl
    · cases hu
    rw [hhosts]
    rcases hhost : c.resolveHost env.dns with e | _ | b <;> simp only [hhost] at hu ⊢
    · obtain ⟨b, hb, he⟩ := Option.map_eq_some_iff.mp hu
      cases he
      rw [hb]
      rfl
    · cases hu
    · cases hu
      rw [if_pos rfl]
      unfold Dns.Agent.refreshIp
      change _ = Option.map _ ((b.set Dns.NETDB_SUCCESS).1.toAgent.refresh start).state?
      cases (b.set Dns.NETDB_SUCCESS).1.toAgent.refresh start <;> rfl

/-- But for a refresh, a host is its IP part, whose states a DNS agent only compares with its own. -/
theorem step_other {j : Host.Input} (hj : ∀ env start, j ≠ .refresh env start) :
    h.step j = (h.toAgent.step j.ip).map h.withAgent := by
  cases j with
  | refresh env start => exact absurd rfl (hj env start)
  | result response source =>
    cases h with
    | ip a => rfl
    | gateway g =>
      change Option.map _ (if g.running then _ else none) = Option.map _ (if g.running then _ else none)
      split_ifs <;> rfl
    | dns d =>
      change Option.map _ (if d.running then _ else none) = Option.map _ (if d.running then _ else none)
      split_ifs <;> rfl
  | computeState base ifaces =>
    have hstep : h.step (.computeState base ifaces) = some (h.computeState base ifaces).1 := by cases h <;> rfl
    rw [hstep, computeState_withAgent]
    rfl
  | address addr => cases h <;> rfl

theorem exec_other {js : List Host.Input} (hjs : ∀ env start, .refresh env start ∉ js) (h : Host) :
    exec Host.step h js = (exec Agent.step h.toAgent (js.map Host.Input.ip)).map h.withAgent := by
  induction js generalizing h with
  | nil =>
    change some h = some (h.withAgent h.toAgent)
    rw [Host.withAgent_toAgent]
  | cons j js ih =>
    have hj : ∀ env start, j ≠ .refresh env start := fun env start he => hjs env start (he ▸ List.mem_cons_self)
    have hrest : ∀ env start, .refresh env start ∉ js := fun env start hmem =>
      hjs env start (List.mem_cons_of_mem j hmem)
    rw [exec, step_other hj, List.map_cons, exec]
    cases h.toAgent.step j.ip with
    | none => rfl
    | some a =>
      have hsame : (h.withAgent a).withAgent = h.withAgent := funext fun b => Host.withAgent_withAgent h a b
      rw [Option.map_some, Option.bind_some, Option.bind_some, ih hrest, Host.toAgent_withAgent, hsame]

/-! ### The fields of its class -/

theorem host_eq_some : m.host w = some h ↔ ∃ g, m.hosts w = some g ∧ h = g.withAgent
    { g.toAgent with address := (m.controller.world.workers w).addr, running := m.controller.world.busy w } := by
  unfold Hosts.host
  rw [Option.map_eq_some_iff]
  exact exists_congr fun g => and_congr_right fun _ => eq_comm

theorem notify_own {hosts hosts' : WorkerId → Option Host} {es : List Event} (hn : Hosts.notify hosts es = some hosts')
    (hw : hosts w = some h) : ∃ a, hosts' w = some (h.withAgent a) := by
  induction es generalizing hosts h with
  | nil =>
    cases hn
    exact ⟨h.toAgent, by rw [hw, Host.withAgent_toAgent]⟩
  | cons e es ih =>
    cases e with
    | inserted | removed => exact ih hn hw
    | set n v response source =>
      obtain ⟨g, hg, hn⟩ := Option.bind_eq_some_iff.mp hn
      by_cases hv : v = w
      · subst hv
        obtain rfl : g = h := Option.some.inj (hg.symm.trans hw)
        obtain ⟨a, ha⟩ := ih hn (Function.update_self v _ _)
        exact ⟨a, by rw [ha, Host.withAgent_withAgent]⟩
      · exact ih hn ((Function.update_of_ne (Ne.symm hv) _ _).trans hw)

theorem call_own {c : Icmp.Controller.Input} (ht : m.call c = some t) (hw : m.hosts w = some h) :
    ∃ a, t.hosts w = some (h.withAgent a) := by
  obtain ⟨controller, -, ht⟩ := Option.bind_eq_some_iff.mp ht
  obtain ⟨hosts, hhosts, rfl⟩ := Option.map_eq_some_iff.mp ht
  exact notify_own hhosts hw

theorem store_own {v : WorkerId} (hu : m.host v = some u) (hw : m.hosts w = some h) (a : Agent) :
    ∃ b, (m.store v (u.withAgent a)).hosts w = some (h.withAgent b) := by
  by_cases hv : v = w
  · subst hv
    obtain ⟨g, hg, rfl⟩ := host_eq_some.mp hu
    obtain rfl : g = h := Option.some.inj (hg.symm.trans hw)
    exact ⟨a, (Function.update_self v _ _).trans (by rw [Host.withAgent_withAgent])⟩
  · exact ⟨h.toAgent, (Function.update_of_ne (Ne.symm hv) _ _).trans (by rw [hw, Host.withAgent_toAgent])⟩

theorem refreshIp_own {v : WorkerId} {env : Icmp.Controller.InsertEnv} (ht : m.refreshIp v env = some t)
    (hw : m.hosts w = some h) : ∃ a, t.hosts w = some (h.withAgent a) := by
  obtain ⟨u, hu, ht⟩ := Option.bind_eq_some_iff.mp ht
  dsimp only at ht
  split_ifs at ht
  · obtain ⟨a, -, rfl⟩ := Option.map_eq_some_iff.mp ht
    exact store_own hu hw a
  · exact call_own ht hw

theorem place_own {v : WorkerId} (ht : m.place v u = some t) (hw : m.hosts w = some h) :
    ∃ a, t.hosts w = some ((if v = w then u else h).withAgent a) := by
  obtain ⟨old, hold, ht⟩ := Option.bind_eq_some_iff.mp ht
  by_cases hv : v = w
  · subst hv
    obtain ⟨a, ha⟩ := call_own ht (Function.update_self v _ _)
    exact ⟨a, by rw [ha, Host.withAgent_withAgent, if_pos rfl]⟩
  · rw [if_neg hv]
    exact call_own ht ((Function.update_of_ne (Ne.symm hv) _ _).trans hw)

/-- A step leaves the fields of a class alone, unless it is a refresh of the host. -/
theorem step_own (hi : ∀ env, i ≠ .refresh w env) (hd : i ≠ .destroy w) (ht : m.step i = some t)
    (hw : m.hosts w = some h) : ∃ a, t.hosts w = some (h.withAgent a) := by
  cases i with
  | refresh v env =>
    obtain ⟨g, -, ht⟩ := Option.bind_eq_some_iff.mp ht
    obtain ⟨⟨u, goes⟩, -, ht⟩ := Option.bind_eq_some_iff.mp ht
    obtain ⟨n, hn, ht⟩ := Option.bind_eq_some_iff.mp ht
    obtain ⟨a, ha⟩ := place_own hn hw
    have hv : v ≠ w := fun he => hi env (he ▸ rfl)
    rw [if_neg hv] at ha
    cases goes with
    | false =>
      cases ht
      exact ⟨a, ha⟩
    | true =>
      obtain ⟨b, hb⟩ := refreshIp_own (t := t) ht ha
      exact ⟨b, by rw [hb, Host.withAgent_withAgent]⟩
  | computeState v base ifaces =>
    obtain ⟨g, hg, rfl⟩ := Option.map_eq_some_iff.mp ht
    rw [computeState_withAgent]
    exact store_own hg hw _
  | address v addr =>
    obtain ⟨g, -, ht⟩ := Option.bind_eq_some_iff.mp ht
    exact call_own ht hw
  | destroy v =>
    obtain ⟨g, -, ht⟩ := Option.bind_eq_some_iff.mp ht
    obtain ⟨n, hn, rfl⟩ := Option.map_eq_some_iff.mp ht
    have hvw : w ≠ v := fun he => hd (he ▸ rfl)
    obtain ⟨x, hx⟩ := call_own hn hw
    exact ⟨x, (Function.update_of_ne hvw _ _).trans hx⟩
  | onTimer | task | handleEvent => exact call_own ht hw

/-! ### Steps -/

theorem hostHeard_ip (es : List Event) : (es.flatMap (hostHeard w)).map Host.Input.ip = es.flatMap (heard w) := by
  rw [List.map_flatMap]
  refine congrArg (fun f => es.flatMap f) (funext fun e => ?_)
  cases e with
  | set =>
    unfold hostHeard heard
    dsimp only
    split_ifs <;> rfl
  | inserted | removed => rfl

theorem hostHeard_other (es : List Event) (env : Host.RefreshEnv) (start : Bool) :
    .refresh env start ∉ es.flatMap (hostHeard w) := by
  intro hmem
  obtain ⟨e, -, he⟩ := List.mem_flatMap.mp hmem
  cases e with
  | set =>
    unfold hostHeard at he
    dsimp only at he
    split_ifs at he <;> simp at he
  | inserted | removed => cases he

/-- A host is the fields of its class, and its IP part. -/
theorem host_of_own (hown : ∃ x, t.hosts w = some (h.withAgent x)) (hb : t.monitor.agent w = some b) :
    t.host w = some (h.withAgent b) := by
  obtain ⟨x, hx⟩ := hown
  obtain ⟨a, ha⟩ : ∃ a, t.host w = some (h.withAgent a) :=
    ⟨_, host_eq_some.mpr ⟨_, hx, (Host.withAgent_withAgent h x _).symm⟩⟩
  rw [monitor_agent, ha, Option.map_some, Host.toAgent_withAgent] at hb
  cases hb
  exact ha

/-- What the IP part of a host takes, the host takes. -/
theorem host_of_agent {js : List Host.Input} (hjs : ∀ env start, .refresh env start ∉ js)
    (hown : ∃ x, t.hosts w = some (h.withAgent x)) (hb : t.monitor.agent w = some b)
    (hexec : exec Agent.step h.toAgent (js.map Host.Input.ip) = some b) :
    ∃ u, t.host w = some u ∧ exec Host.step h js = some u :=
  ⟨_, host_of_own hown hb, by rw [exec_other hjs, hexec, Option.map_some]⟩

/-- A step that is one step of the IP parts, and leaves the fields of the class alone. -/
theorem step_single {j : Monitor.Input} (hs : Sound m.controller) (hc : m.monitor.Faultless j) (hd : j ≠ .destroy w)
    (hh : m.host w = some h) (ht : m.monitor.step j = some t.monitor)
    (hasked : (hostAsked w m i).map Host.Input.ip = asked w m.monitor j)
    (hother : ∀ env start, .refresh env start ∉ hostAsked w m i)
    (hown : ∃ x, t.hosts w = some (h.withAgent x)) :
    ∃ u, t.host w = some u ∧
      exec Host.step h (hostAsked w m i ++ (Monitor.news m.controller t.controller).flatMap (hostHeard w)) = some u := by
  have ha : m.monitor.agent w = some h.toAgent := by rw [monitor_agent, hh, Option.map_some]
  obtain ⟨b, hb, hexec⟩ := step_inputs hs hc hd ha ht
  rw [inputs_eq ht, ← hasked] at hexec
  refine host_of_agent (fun env start hmem => ?_) hown hb ?_
  · rcases List.mem_append.mp hmem with hmem | hmem
    · exact hother env start hmem
    · exact hostHeard_other _ env start hmem
  · rw [List.map_append, hostHeard_ip]
    exact hexec

theorem openSocket_snd (s : Icmp.Controller) (world : Icmp.World) (env : Icmp.Controller.StartEnv) :
    ({ s with world }.openSocket env).2 = (s.openSocket env).2 := by
  unfold Icmp.Controller.openSocket
  split_ifs
  · split <;> rfl
  · rfl

theorem starts_eq (n : Monitor) (w : WorkerId) (env : Icmp.Controller.InsertEnv) :
    n.starts w env = (!n.controller.world.busy w && (n.controller.openSocket env.start).2) := by
  rw [Monitor.starts, Icmp.Controller.insert, Icmp.Controller.start]
  cases n.controller.world.busy w with
  | true => rfl
  | false =>
    rw [if_neg Bool.false_ne_true]
    rcases n.controller.openSocket env.start with ⟨s, _ | _⟩ <;> rfl

/-- Setting the address tells nothing, and does not matter to the start that follows. -/
theorem place_controller {v : WorkerId} (ht : m.place v u = some t) :
    t.controller = { m.controller with world := m.controller.world.setAddr v u.toAgent.address } := by
  have hstep : m.monitor.step (.address v u.toAgent.address) = some t.monitor := by
    rw [← monitor_place, ht, Option.map_some]
  obtain ⟨a, -, hcall⟩ := Option.bind_eq_some_iff.mp hstep
  exact (Option.some.inj (call_eq_some hcall).1).symm

theorem place_news {v : WorkerId} (ht : m.place v u = some t) (s : Icmp.Controller) :
    Monitor.news t.controller s = Monitor.news m.controller s := by
  rw [Monitor.news, Monitor.news, place_controller ht, Icmp.World.log_setAddr]

theorem place_starts {v : WorkerId} (ht : m.place v u = some t) (w : WorkerId) (env : Icmp.Controller.InsertEnv) :
    t.monitor.starts w env = m.monitor.starts w env := by
  have hcontroller : t.monitor.controller = _ := place_controller ht
  rw [starts_eq, starts_eq, hcontroller, openSocket_snd, Icmp.World.busy_setAddr]
  rfl

theorem own_of_host (hh : m.host w = some h) : ∃ g, m.hosts w = some g ∧ h.withAgent = g.withAgent := by
  obtain ⟨g, hg, rfl⟩ := host_eq_some.mp hh
  exact ⟨g, hg, funext fun a => Host.withAgent_withAgent g _ a⟩

/-- After its search, a host is what was found, and the others are as before. -/
theorem place_host {v : WorkerId} {g : Host} {env : Host.RefreshEnv} {goes : Bool} (hs : Sound m.controller)
    (hh : m.host w = some h) (hg : m.host v = some g) (hu : g.locate env = some (u, goes)) (ht : m.place v u = some t) :
    t.host w = some (if v = w then u else h) := by
  have ha : m.monitor.agent w = some h.toAgent := by rw [monitor_agent, hh, Option.map_some]
  have hstep : m.monitor.step (.address v u.toAgent.address) = some t.monitor := by
    rw [← monitor_place, ht, Option.map_some]
  obtain ⟨b, hb, hexec⟩ := step_inputs hs (fun c hc => by cases hc; exact ⟨id, id⟩) (fun he => by cases he) ha hstep
  have hnews : Monitor.news m.monitor.controller t.monitor.controller = [] :=
    (place_news ht t.controller).symm.trans (news_self _)
  rw [inputs_eq hstep, hnews, List.flatMap_nil, List.append_nil, asked] at hexec
  obtain ⟨stored, hstored, hown⟩ := own_of_host hh
  obtain ⟨x, hx⟩ := place_own ht hstored
  by_cases hv : v = w
  · subst hv
    obtain rfl : g = h := Option.some.inj (hg.symm.trans hh)
    obtain ⟨address, hsame⟩ := locate_toAgent hu
    have hfound : { g.toAgent with address := u.toAgent.address } = u.toAgent := by rw [hsame]
    rw [if_pos rfl] at hexec hx ⊢
    rw [← Option.some.inj hexec] at hb
    change t.monitor.agent v = some { g.toAgent with address := u.toAgent.address } at hb
    rw [host_of_own ⟨x, hx⟩ hb, hfound, Host.withAgent_toAgent]
  · rw [if_neg hv] at hexec hx ⊢
    rw [← Option.some.inj hexec] at hb
    rw [host_of_own ⟨x, by rw [hx, hown]⟩ hb, Host.withAgent_toAgent]

/-- A refresh takes the host of a worker through its inputs. -/
theorem refresh_host {v : WorkerId} {env : Host.RefreshEnv} (hs : Sound m.controller)
    (hc : m.Faultless (.refresh v env)) (hh : m.host w = some h) (ht : m.refresh v env = some t) :
    ∃ u, t.host w = some u ∧ exec Host.step h (hostAsked w m (.refresh v env) ++
      (Monitor.news m.controller t.controller).flatMap (hostHeard w)) = some u := by
  obtain ⟨g, hg, ht⟩ := Option.bind_eq_some_iff.mp ht
  obtain ⟨⟨u, goes⟩, hu, ht⟩ := Option.bind_eq_some_iff.mp ht
  obtain ⟨n, hn, ht⟩ := Option.bind_eq_some_iff.mp ht
  have hplaced := place_host hs hh hg hu hn
  rw [hostAsked, ← place_news hn]
  cases goes with
  | false =>
    cases ht
    refine ⟨_, hplaced, ?_⟩
    rw [news_self, List.flatMap_nil, List.append_nil]
    by_cases hv : v = w
    · subst hv
      obtain rfl : g = h := Option.some.inj (hg.symm.trans hh)
      rw [if_pos rfl, if_pos rfl, exec, step_refresh hu]
      rfl
    · rw [if_neg hv, if_neg hv]
      rfl
  | true =>
    have ht : n.refreshIp v env.insert = some t := ht
    have hstep : n.monitor.step (.refresh v env.insert) = some t.monitor := by
      rw [← monitor_refreshIp, ht, Option.map_some]
    have hsound : Sound n.controller :=
      step_sound hs ((monitor_place m v u).symm.trans (by rw [hn, Option.map_some]))
    have ha : n.monitor.agent w = some (if v = w then u else h).toAgent := by rw [monitor_agent, hplaced, Option.map_some]
    obtain ⟨b, hb, hexec⟩ := step_inputs hsound (fun c hc' => by cases hc'; exact ⟨(hc _ rfl).1, id⟩)
      (fun he => by cases he) ha hstep
    rw [inputs_eq hstep, asked, place_starts hn] at hexec
    obtain ⟨stored, hstored, hown⟩ := own_of_host hplaced
    obtain ⟨x, hx⟩ := refreshIp_own ht hstored
    rw [← hown] at hx
    by_cases hv : v = w
    · subst hv
      obtain rfl : g = h := Option.some.inj (hg.symm.trans hh)
      simp only [if_pos] at hexec hx ⊢
      rw [exec_append] at hexec
      obtain ⟨c, hc, hexec⟩ := Option.bind_eq_some_iff.mp hexec
      rw [exec] at hc
      obtain ⟨c', hc', hc⟩ := Option.bind_eq_some_iff.mp hc
      cases hc
      obtain ⟨k, hk, hheard⟩ := host_of_agent (h := u.withAgent c) (hostHeard_other _)
        ⟨x, hx.trans (congrArg some (Host.withAgent_withAgent u c x).symm)⟩ hb (by
          rw [Host.toAgent_withAgent, hostHeard_ip]
          exact hexec)
      refine ⟨k, hk, ?_⟩
      have hfirst : g.step (.refresh env (m.monitor.starts v env.insert)) = some (u.withAgent c) := by
        rw [step_refresh hu, if_pos rfl]
        exact congrArg (Option.map u.withAgent) hc'
      rw [List.singleton_append, exec, hfirst, Option.bind_some]
      exact hheard
    · simp only [if_neg hv] at hexec hx ⊢
      exact host_of_agent (hostHeard_other _) ⟨x, hx⟩ hb (by
        rw [List.nil_append, hostHeard_ip]
        exact hexec)

theorem hostInputs_eq (ht : m.step i = some t) : hostInputs w m i =
    hostAsked w m i ++ (Monitor.news m.controller t.controller).flatMap (hostHeard w) := by
  rw [hostInputs, ht]
  rfl

/-- A step takes the host of a worker through its inputs. -/
theorem step_host (hs : Sound m.controller) (hc : m.Faultless i) (hd : i ≠ .destroy w) (hh : m.host w = some h)
    (ht : m.step i = some t) : ∃ u, t.host w = some u ∧ exec Host.step h (hostInputs w m i) = some u := by
  rw [hostInputs_eq ht]
  obtain ⟨stored, hstored, hown⟩ := own_of_host hh
  have single : ∀ {o : Option Hosts} {j : Monitor.Input}, o.map monitor = m.monitor.step j → o = some t →
      m.monitor.step j = some t.monitor := fun hj ho => by rw [← hj, ho, Option.map_some]
  have kept : (∀ env, i ≠ .refresh w env) → ∃ x, t.hosts w = some (h.withAgent x) := fun hi => by
    obtain ⟨x, hx⟩ := step_own hi hd ht hstored
    exact ⟨x, by rw [hx, hown]⟩
  cases i with
  | refresh v env => exact refresh_host hs hc hh ht
  | computeState v base ifaces =>
    refine step_single (j := .computeState v base ifaces) hs (fun c hcall => by cases hcall) (fun he => by cases he) hh
      (single (monitor_computeState m v base ifaces) ht) ?_ (fun env start => ?_) (kept fun _ he => by cases he)
    · rw [hostAsked, asked]
      split_ifs <;> rfl
    · rw [hostAsked]
      split_ifs <;> simp
  | address v addr =>
    refine step_single (j := .address v addr) hs hc (fun he => by cases he) hh (single (monitor_address m v addr) ht) ?_
      (fun env start => ?_) (kept fun _ he => by cases he)
    · rw [hostAsked, asked]
      split_ifs <;> rfl
    · rw [hostAsked]
      split_ifs <;> simp
  | destroy v =>
    exact step_single (j := .destroy v) hs hc (fun he => hd (by cases he; rfl)) hh (single (monitor_destroy m v) ht) rfl
      (fun _ _ hmem => by cases hmem) (kept fun _ he => by cases he)
  | onTimer =>
    exact step_single (j := .onTimer) hs hc (fun he => by cases he) hh (single (monitor_call m _) ht) rfl
      (fun _ _ hmem => by cases hmem) (kept fun _ he => by cases he)
  | task env =>
    exact step_single (j := .task env) hs hc (fun he => by cases he) hh (single (monitor_call m _) ht) rfl
      (fun _ _ hmem => by cases hmem) (kept fun _ he => by cases he)
  | handleEvent oninput recv now =>
    exact step_single (j := .handleEvent oninput recv now) hs hc (fun he => by cases he) hh
      (single (monitor_call m _) ht) rfl (fun _ _ hmem => by cases hmem) (kept fun _ he => by cases he)

/-! ### Runs -/

theorem hosts_sound (hs : Sound m.controller) (ht : m.step i = some t) : Sound t.controller :=
  (always_of_step (I := fun n : Monitor => Sound n.controller) (fun _ _ _ hn hu => step_sound hn hu)
    (s := m.monitor) hs _).of_exec (step_monitor ht)

/-- While nothing goes wrong, and as long as it exists, the host of a worker is the machine of its class. -/
theorem hosts_project_host (w : WorkerId) :
    Projects Hosts.step Host.step (fun m => Sound m.controller ∧ (m.host w).isSome)
      (fun m i => m.Faultless i ∧ i ≠ .destroy w) (fun m => (m.host w).getD (.ip {})) (hostInputs w) where
  keeps m i t hI hc ht := by
    obtain ⟨h, hh⟩ := Option.isSome_iff_exists.mp hI.2
    obtain ⟨u, hu, -⟩ := step_host hI.1 hc.1 hc.2 hh ht
    exact ⟨hosts_sound hI.1 ht, Option.isSome_iff_exists.mpr ⟨u, hu⟩⟩
  run m i t hI hc ht := by
    obtain ⟨h, hh⟩ := Option.isSome_iff_exists.mp hI.2
    obtain ⟨u, hu, hexec⟩ := step_host hI.1 hc.1 hc.2 hh ht
    rw [hh, hu]
    exact hexec

theorem hostAsked_results : (hostAsked w m i).flatMap Host.Input.results = [] := by
  cases i with
  | refresh | computeState | address =>
    unfold hostAsked
    dsimp only
    split_ifs <;> rfl
  | destroy | onTimer | task | handleEvent => rfl

theorem hostAsked_calls : (hostAsked w m i).flatMap Host.Input.calls = hostCalls w i := by
  cases i with
  | refresh | computeState | address =>
    unfold hostAsked hostCalls
    dsimp only
    split_ifs <;> rfl
  | destroy | onTimer | task | handleEvent => rfl

theorem hostHeard_results (es : List Event) :
    (es.flatMap (hostHeard w)).flatMap Host.Input.results = es.flatMap (resultsOf w) := by
  rw [List.flatMap_assoc]
  refine congrArg (fun f => es.flatMap f) (funext fun e => ?_)
  cases e with
  | set =>
    unfold hostHeard resultsOf
    dsimp only
    split_ifs <;> rfl
  | inserted | removed => rfl

theorem hostHeard_calls (es : List Event) : (es.flatMap (hostHeard w)).flatMap Host.Input.calls = [] := by
  rw [List.flatMap_assoc, List.flatMap_eq_nil_iff]
  intro e _
  cases e with
  | set =>
    unfold hostHeard
    dsimp only
    split_ifs <;> rfl
  | inserted | removed => rfl

theorem hosts_news (hs : Sound m.controller) (ht : m.step i = some t) :
    t.controller.world.log = m.controller.world.log ++ Monitor.news m.controller t.controller := by
  obtain ⟨es, hes⟩ : ∃ es, t.controller.world.log = m.controller.world.log ++ es := by
    refine (always_of_step (I := fun n : Monitor => Sound n.controller ∧ ∃ es, n.controller.world.log =
      m.controller.world.log ++ es) (fun a _ b hn hu => ⟨step_sound hn.1 hu, ?_⟩)
      (s := m.monitor) ⟨hs, [], (List.append_nil _).symm⟩ _).of_exec (step_monitor ht) |>.2
    obtain ⟨es, hes⟩ := hn.2
    exact ⟨_, by rw [step_news hn.1 hu, hes, List.append_assoc]⟩
  rw [news_eq hes, hes]

/-- In every run in which no host throws in its `set` and no packet of an unexpected type takes a host from the list,
    whatever the other hosts do, each IP agent, DNS agent and default gateway that is not destroyed runs as the machine of
    its class by itself on what it takes step by step: the calls that were made of it, with the answers that these got,
    and, among them, exactly the results that the controller has told of its worker. --/
theorem hosts_refine (pid : Nat) (workers : WorkerId → Icmp.Worker) (hosts : WorkerId → Option Host) (is : List Input)
    (hfaultless : Along Hosts.step Hosts.Faultless (Hosts.init pid workers hosts) is)
    (hm : exec Hosts.step (Hosts.init pid workers hosts) is = some m) (w : WorkerId) (hlive : .destroy w ∉ is)
    (hh : (Hosts.init pid workers hosts).host w = some h) :
    let js := trace Hosts.step (hostInputs w) (Hosts.init pid workers hosts) is
    ∃ u, exec Host.step h js = some u ∧ m.host w = some u ∧
      js.flatMap Host.Input.results = m.controller.world.log.flatMap (resultsOf w) ∧
      js.flatMap Host.Input.calls = is.flatMap (hostCalls w) := by
  intro js
  have hI : Sound (Hosts.init pid workers hosts).controller ∧ ((Hosts.init pid workers hosts).host w).isSome :=
    ⟨Icmp.sound_init pid workers, Option.isSome_iff_exists.mpr ⟨h, hh⟩⟩
  have hC : Along Hosts.step (fun m i => m.Faultless i ∧ i ≠ .destroy w) (Hosts.init pid workers hosts) is :=
    hfaultless.and (along_of_forall fun i hi he => hlive (he ▸ hi))
  have hresults : ∀ m i t, Sound m.controller ∧ (m.host w).isSome → m.Faultless i ∧ i ≠ .destroy w →
      m.step i = some t → t.controller.world.log.flatMap (resultsOf w) =
        m.controller.world.log.flatMap (resultsOf w) ++ (hostInputs w m i).flatMap Host.Input.results := by
    intro m i t hI _ ht
    rw [hostInputs_eq ht, List.flatMap_append, hostAsked_results, List.nil_append, hostHeard_results,
      ← List.flatMap_append, ← hosts_news hI.1 ht]
  have hcalls : ∀ m i t, Sound m.controller ∧ (m.host w).isSome → m.Faultless i ∧ i ≠ .destroy w →
      m.step i = some t → (hostInputs w m i).flatMap Host.Input.calls = hostCalls w i := by
    intro m i t _ _ ht
    rw [hostInputs_eq ht, List.flatMap_append, hostAsked_calls, hostHeard_calls, List.append_nil]
  have hproject := hosts_project_host w
  obtain ⟨u, hu, hrun⟩ := hproject.exec_some hI.1 hh hC hm
  exact ⟨u, hrun, hu, (trace_output hproject.keeps hresults hI hC hm).symm, trace_inputs hproject.keeps hcalls hI hC hm⟩

/-- A DNS agent with the address of an answer, which gets a timeout, next to a default gateway. --/
theorem hosts_refine_two :
    let env : Host.RefreshEnv :=
      { detect := { recvs := [], ifname := fun _ => "" }
        dns := { answer := .response [⟨1, [10, 0, 0, 1], true⟩] }
        insert := { start := { socket := some 7 } } }
    let s := Hosts.init 1 (fun _ => {}) fun w =>
      if w = 0 then some (.dns { hostname := "a" }) else if w = 1 then some (.gateway {}) else none
    let is : List Input := [.refresh 0 env, .refresh 1 env, .onTimer, .task fun _ => { now := 10 }, .destroy 1]
    let js := trace Hosts.step (hostInputs 0) s is
    ∃ m, exec Hosts.step s is = some m ∧
      ∃ u, exec Host.step (.dns { hostname := "a" }) js = some u ∧ m.host 0 = some u ∧
        js.flatMap Host.Input.results = m.controller.world.log.flatMap (resultsOf 0) ∧
        js.flatMap Host.Input.calls = is.flatMap (hostCalls 0) := by
  intro env s is js
  obtain ⟨m, hm⟩ : ∃ m, exec Hosts.step s is = some m := ⟨_, rfl⟩
  have hfaultless : ∀ i ∈ is, ∀ m : Hosts, m.Faultless i := by
    intro i hi m c hc
    simp only [is, List.mem_cons, List.not_mem_nil, or_false] at hi
    rcases hi with rfl | rfl | rfl | rfl | rfl <;> cases hc
    · exact ⟨fun ⟨_, hn⟩ => (by cases hn), id⟩
    · exact ⟨fun ⟨_, hn⟩ => (by cases hn), id⟩
    · exact ⟨id, id⟩
    · exact ⟨fun ⟨_, _, hn⟩ => (by cases hn), id⟩
    · exact ⟨id, id⟩
  have halong : Along Hosts.step Hosts.Faultless s is :=
    (along_of_forall (C := fun i => i ∈ is) fun _ hi => hi).mono fun m i hi => hfaultless i hi m
  exact ⟨m, hm, hosts_refine 1 _ _ is halong hm 0 (by simp [is]) rfl⟩

end UdjatNetwork.Ip
