import UdjatNetwork.Ip.Hosts
import UdjatNetwork.Theorems.Classes
import UdjatNetwork.Theorems.LastResult

/-! # Hosts of all classes

What the hosts do together is, for their IP parts, what IP agents with the same controller do: a host sets the address
that it found, and is refreshed. So they keep all that IP agents keep, in whichever order they are called. -/

namespace UdjatNetwork.Ip
open Machine Hosts
open Icmp (WorkerId Event)

variable {m t : Hosts} {w : WorkerId} {i : Input} {h u : Host} {a b : Agent}

/-- The IP parts of the hosts. -/
def Hosts.monitor (m : Hosts) : Monitor where
  controller := m.controller
  agents w := (m.hosts w).map Host.toAgent

/-- What the IP parts take in a step. -/
def Hosts.inputs (m : Hosts) : Input → List Monitor.Input
  | .refresh w env =>
    match (m.host w).bind fun h => h.locate env with
    | some (u, true) => [.address w u.toAgent.address, .refresh w env.insert]
    | some (u, false) => [.address w u.toAgent.address]
    | none => []
  | .computeState w base ifaces => [.computeState w base ifaces]
  | .address w addr => [.address w addr]
  | .destroy w => [.destroy w]
  | .onTimer => [.onTimer]
  | .task env => [.task env]
  | .handleEvent oninput recv now => [.handleEvent oninput recv now]

/-! ### Views -/

theorem toAgents_update (hosts : WorkerId → Option Host) (w : WorkerId) (h : Option Host) :
    (fun v => (Function.update hosts w h v).map Host.toAgent) =
      Function.update (fun v => (hosts v).map Host.toAgent) w (h.map Host.toAgent) := by
  funext v
  by_cases hv : v = w
  · rw [hv, Function.update_self, Function.update_self]
  · rw [Function.update_of_ne hv, Function.update_of_ne hv]

theorem monitor_agent (m : Hosts) (w : WorkerId) : m.monitor.agent w = (m.host w).map Host.toAgent := by
  unfold Monitor.agent Hosts.host
  rw [Option.map_map]
  change ((m.hosts w).map Host.toAgent).map _ = _
  rw [Option.map_map]
  exact congrArg (fun f => (m.hosts w).map f) (funext fun h => (Host.toAgent_withAgent h _).symm)

theorem monitor_store (m : Hosts) (w : WorkerId) (h : Host) : (m.store w h).monitor = m.monitor.store w h.toAgent :=
  congrArg (Monitor.mk m.controller) (toAgents_update m.hosts w (some h))

theorem notify_toAgent (hosts : WorkerId → Option Host) (es : List Event) :
    (Hosts.notify hosts es).map (fun hosts v => (hosts v).map Host.toAgent) =
      Monitor.notify (fun v => (hosts v).map Host.toAgent) es := by
  induction es generalizing hosts with
  | nil => rfl
  | cons e es ih =>
    cases e with
    | inserted | removed => exact ih hosts
    | set n v response source =>
      rw [Hosts.notify, Monitor.notify]
      cases hv : hosts v with
      | none => rfl
      | some h =>
        rw [Option.bind_some, ih, toAgents_update, Option.map_some, Option.map_some, Option.bind_some,
          Host.toAgent_withAgent]

theorem monitor_call (m : Hosts) (c : Icmp.Controller.Input) : (m.call c).map monitor = m.monitor.call c := by
  unfold Hosts.call Monitor.call
  change _ = (m.controller.step c).bind _
  rw [Option.map_bind]
  refine congrArg (fun f => (m.controller.step c).bind f) (funext fun s => ?_)
  change _ = (Monitor.notify (fun v => (m.hosts v).map Host.toAgent) (Monitor.news m.controller s)).map _
  rw [← notify_toAgent, Function.comp_apply, Option.map_map, Option.map_map]
  rfl

/-! ### Steps -/

theorem monitor_agents (hh : m.hosts w = some h) : m.monitor.agents w = some h.toAgent :=
  congrArg (Option.map Host.toAgent) hh

/-- What was found is stored beside the IP part, which is given the address. -/
theorem monitor_place (m : Hosts) (w : WorkerId) (u : Host) :
    (m.place w u).map monitor = m.monitor.step (.address w u.toAgent.address) := by
  cases hold : m.hosts w with
  | none =>
    have hagents : m.monitor.agents w = none := congrArg (Option.map Host.toAgent) hold
    rw [Hosts.place, hold, Monitor.step, hagents]
    rfl
  | some old =>
    have hsame : (m.store w (u.withAgent old.toAgent)).monitor = m.monitor := by
      rw [monitor_store, Host.toAgent_withAgent]
      exact congrArg (Monitor.mk m.controller) (Function.update_eq_self_iff.mpr (monitor_agents hold).symm)
    rw [Hosts.place, hold, Option.bind_some, monitor_call, hsame, Monitor.step, monitor_agents hold, Option.bind_some]

theorem monitor_refreshIp (m : Hosts) (w : WorkerId) (env : Icmp.Controller.InsertEnv) :
    (m.refreshIp w env).map monitor = m.monitor.step (.refresh w env) := by
  change _ = m.monitor.refresh w env
  rw [Hosts.refreshIp, Monitor.refresh, monitor_agent]
  cases m.host w with
  | none => rfl
  | some h =>
    rw [Option.bind_some, Option.map_some, Option.bind_some]
    dsimp only
    split_ifs
    · rw [Option.map_map]
      refine congrArg (fun f => (h.toAgent.refresh false).state?.map f) (funext fun a => ?_)
      rw [Function.comp_apply, monitor_store, Host.toAgent_withAgent]
    · exact monitor_call m _

theorem computeState_withAgent (h : Host) (base : Level) (ifaces : Option (List Interface)) :
    (h.computeState base ifaces).1 = h.withAgent (h.toAgent.computeState base ifaces).1 := by
  cases h with
  | ip | gateway => rfl
  | dns d =>
    change Host.dns (d.computeState base ifaces).1 = Host.dns { d with toAgent := (d.toAgent.computeState base ifaces).1 }
    unfold Dns.Agent.computeState
    rcases d.toAgent.computeState base ifaces with ⟨a, _ | state⟩
    · rfl
    · dsimp only
      cases d.dnsState <;> rfl

theorem monitor_computeState (m : Hosts) (w : WorkerId) (base : Level) (ifaces : Option (List Interface)) :
    (m.step (.computeState w base ifaces)).map monitor = m.monitor.step (.computeState w base ifaces) := by
  rw [Hosts.step, Monitor.step, monitor_agent, Option.map_map, Option.map_map]
  refine congrArg (fun f => (m.host w).map f) (funext fun h => ?_)
  rw [Function.comp_apply, Function.comp_apply, monitor_store, computeState_withAgent, Host.toAgent_withAgent]

theorem monitor_address (m : Hosts) (w : WorkerId) (addr : Address) :
    (m.step (.address w addr)).map monitor = m.monitor.step (.address w addr) := by
  rw [Hosts.step, Monitor.step]
  change _ = ((m.hosts w).map Host.toAgent).bind _
  cases m.hosts w with
  | none => rfl
  | some h =>
    rw [Option.bind_some, Option.map_some, Option.bind_some]
    exact monitor_call m _

theorem monitor_destroy (m : Hosts) (w : WorkerId) :
    (m.step (.destroy w)).map monitor = m.monitor.step (.destroy w) := by
  change (m.destroy w).map monitor = m.monitor.destroy w
  rw [Hosts.destroy, Monitor.destroy]
  change _ = ((m.hosts w).map Host.toAgent).bind _
  cases m.hosts w with
  | none => rfl
  | some h =>
    rw [Option.bind_some, Option.map_some, Option.bind_some, ← monitor_call, Option.map_map, Option.map_map]
    refine congrArg (fun f => (m.call (.remove w)).map f) (funext fun n => ?_)
    exact congrArg (Monitor.mk n.controller) (toAgents_update n.hosts w none)

/-- A step of the hosts is one step of their IP parts, and a refresh may be two. -/
theorem step_monitor (ht : m.step i = some t) : exec Monitor.step m.monitor (m.inputs i) = some t.monitor := by
  have single : ∀ {n : Hosts} {o : Option Hosts} {j : Monitor.Input}, o.map monitor = n.monitor.step j → o = some t →
      exec Monitor.step n.monitor [j] = some t.monitor := fun hj ho => by
    rw [exec, ← hj, ho]
    rfl
  cases i with
  | refresh v env =>
    obtain ⟨h, hh, ht⟩ := Option.bind_eq_some_iff.mp ht
    obtain ⟨⟨u, goes⟩, hu, ht⟩ := Option.bind_eq_some_iff.mp ht
    obtain ⟨n, hn, ht⟩ := Option.bind_eq_some_iff.mp ht
    have haddress : m.monitor.step (.address v u.toAgent.address) = some n.monitor := by
      rw [← monitor_place, hn, Option.map_some]
    rw [Hosts.inputs, hh, Option.bind_some, hu]
    cases goes with
    | false =>
      cases ht
      exact single (monitor_place m v u) hn
    | true =>
      change exec Monitor.step m.monitor [.address v u.toAgent.address, .refresh v env.insert] = some t.monitor
      rw [exec, haddress, Option.bind_some]
      exact single (monitor_refreshIp n v env.insert) ht
  | computeState v base ifaces => exact single (monitor_computeState m v base ifaces) ht
  | address v addr => exact single (monitor_address m v addr) ht
  | destroy v => exact single (monitor_destroy m v) ht
  | onTimer | task | handleEvent => exact single (monitor_call m _) ht

theorem hosts_project :
    Projects Hosts.step Monitor.step (fun _ => True) (fun _ _ => True) monitor Hosts.inputs where
  keeps := fun _ _ _ _ _ _ => trivial
  run := fun _ _ _ _ _ ht => step_monitor ht

/-! ### Results -/

/-- Each host has followed the responses that its worker was told. -/
def Hosts.Informed (hosts : WorkerId → Option Host) (m : Hosts) : Prop :=
  ∀ w u, m.host w = some u →
    ∃ h, hosts w = some h ∧ h.toAgent.Followed (m.controller.world.log.flatMap (responsesOf w)) u.toAgent

/-- One of the queries of a refresh succeeds without a record. -/
def Host.NoRecord (h : Host) (env : Host.RefreshEnv) : Prop :=
  ∃ d, h = .dns d ∧ (d.resolveServer env.dns = .ok none ∨
    ∃ e, d.resolveServer env.dns = .ok (some e) ∧ e.resolveHost env.dns = .ok none)

/-- The host that is called exists. -/
def Hosts.Exists (m : Hosts) : Input → Prop
  | .refresh w _ | .computeState w _ _ | .address w _ | .destroy w => (m.hosts w).isSome
  | _ => True

/-- A busy worker belongs to a host that exists. -/
def Hosts.Alive (m : Hosts) : Prop := ∀ w, m.controller.world.busy w = true → (m.hosts w).isSome

theorem informed_monitor {hosts : WorkerId → Option Host}
    (hm : m.monitor.Informed fun w => (hosts w).map Host.toAgent) : m.Informed hosts := by
  intro w u hu
  have hagent : m.monitor.agent w = some u.toAgent := by rw [monitor_agent, hu, Option.map_some]
  obtain ⟨a, ha, hf⟩ := hm w u.toAgent hagent
  obtain ⟨h, hh, rfl⟩ := Option.map_eq_some_iff.mp ha
  exact ⟨h, hh, hf⟩

theorem informed_init {hosts : WorkerId → Option Host} (pid : Nat) (workers : WorkerId → Icmp.Worker)
    (hnew : ∀ w h, hosts w = some h → h.toAgent.response = .invalid) :
    (Hosts.init pid workers hosts).monitor.Informed fun w => (hosts w).map Host.toAgent :=
  informed_agents.mpr fun w a ha => by
    obtain ⟨h, hh, rfl⟩ := Option.map_eq_some_iff.mp ha
    exact ⟨h.toAgent, ha, .refl (hnew w h hh)⟩

/-- The IP parts stay informed, as IP agents do. -/
theorem always_informed {hosts : WorkerId → Option Host} (hm : m.monitor.Informed fun w => (hosts w).map Host.toAgent)
    (is : List Input) : Always Hosts.step (Hosts.Informed hosts) m is :=
  (hosts_project.always trivial (anything_along _ is)
    (always_of_step (fun _ _ _ hs ht => step_informed hs ht) hm _)).mono fun _ => informed_monitor

/-- In every state of every run of hosts of all classes with one controller, whatever the queries answer and the routes
    tell, whatever the workers throw and whichever packets arrive, each host has the ICMP state for the last result that
    the controller has told of its worker, its own one or else the predefined one, and one update for each. --/
theorem hosts_informed (pid : Nat) (workers : WorkerId → Icmp.Worker) (hosts : WorkerId → Option Host)
    (hnew : ∀ w h, hosts w = some h → h.toAgent.response = .invalid) (is : List Input) :
    Always Hosts.step (Hosts.Informed hosts) (Hosts.init pid workers hosts) is :=
  always_informed (informed_init pid workers hnew) is

/-- A DNS agent with a state of its own for the timeout, and a default gateway without a route. --/
theorem hosts_informed_dns :
    let env : Host.RefreshEnv :=
      { detect := { recvs := [], ifname := fun _ => "" }
        dns := { answer := .response [⟨1, [10, 0, 0, 1], true⟩] }
        insert := { start := { socket := some 7 } } }
    let hosts : WorkerId → Option Host := fun w =>
      if w = 0 then some (.dns { hostname := "a", icmpStates := [⟨"slow", .warning, .timeout⟩] }) else some (.gateway {})
    Always Hosts.step (Hosts.Informed hosts) (Hosts.init 1 (fun _ => {}) hosts)
      [.refresh 0 env, .refresh 1 env, .onTimer, .task fun _ => { now := 10 }] := by
  intro env hosts
  refine hosts_informed 1 _ hosts (fun w h hh => ?_) _
  by_cases hw : w = 0
  · obtain rfl := Option.some.inj ((if_pos hw).symm.trans hh)
    rfl
  · obtain rfl := Option.some.inj ((if_neg hw).symm.trans hh)
    rfl

/-! ### Hosts that exist -/

theorem insert_defined (s : Icmp.Controller) (w : WorkerId) (env : Icmp.Controller.InsertEnv) :
    s.step (.insert w env) ≠ none := by
  rw [Icmp.Controller.step, Icmp.Controller.insert, Icmp.Controller.start]
  split_ifs
  · exact Option.some_ne_none _
  · rcases s.openSocket env.start with ⟨s, _ | _⟩ <;> exact Option.some_ne_none _

/-- A call of the IP part of a host that exists is undefined only where the controller is. -/
theorem defined_of_monitor {o : Option Hosts} {n : Monitor} {j : Monitor.Input} (ho : o.map monitor = n.step j)
    (hs : Icmp.Sound n.controller) (hn : n.Alive) (hj : n.Exists j) (hnone : o = none) :
    ∃ c ∈ j.call, n.controller.step c = none := by
  refine step_defined hs hn hj ?_
  rw [← ho, hnone, Option.map_none]

theorem caught_defined (d : Dns.Agent) (e : Dns.Error) : (d.caught e).1.state? ≠ none := by
  cases e <;> exact Option.some_ne_none _

theorem locate_eq_none {env : Host.RefreshEnv} (hu : h.locate env = none) : h.NoRecord env := by
  cases h with
  | ip a => cases hu
  | gateway g =>
    rcases detect_toAgent g env.detect with ⟨u, hd, -⟩ | ⟨u, changed, hd, -⟩ <;> rw [Host.locate, hd] at hu <;> cases hu
  | dns d =>
    rw [Host.locate] at hu
    rcases hserver : d.resolveServer env.dns with e | _ | c <;> simp only [hserver] at hu
    · exact absurd (Option.map_eq_none_iff.mp hu) (caught_defined d e)
    · exact ⟨d, rfl, Or.inl hserver⟩
    · rcases hhost : c.resolveHost env.dns with e | _ | b <;> simp only [hhost] at hu
      · exact absurd (Option.map_eq_none_iff.mp hu) (caught_defined c e)
      · exact ⟨d, rfl, Or.inr ⟨c, hserver, hhost⟩⟩
      · cases hu

theorem host_isSome (m : Hosts) (w : WorkerId) : (m.host w).isSome = (m.hosts w).isSome := Option.isSome_map

/-- A step that concerns a host that exists is undefined only in the pass of the timer, or where a DNS agent reads the
    address of no record. -/
theorem hosts_defined (hs : Icmp.Sound m.controller) (hm : m.Alive) (hi : m.Exists i) (ht : m.step i = none) :
    (∃ env, i = .task env ∧ m.controller.step (.task env) = none) ∨
      ∃ w env h, i = .refresh w env ∧ m.host w = some h ∧ h.NoRecord env := by
  have hlive : m.monitor.Alive := fun w hw => Option.isSome_map.trans (hm w hw)
  have hexists : ∀ {w}, (m.hosts w).isSome → (m.monitor.agents w).isSome := fun hw => Option.isSome_map.trans hw
  cases i with
  | refresh v env =>
    obtain ⟨h, hh⟩ := Option.isSome_iff_exists.mp ((host_isSome m v).trans hi)
    rcases hu : h.locate env with _ | ⟨u, goes⟩
    · exact Or.inr ⟨v, env, h, rfl, hh, locate_eq_none hu⟩
    · change m.refresh v env = none at ht
      rw [Hosts.refresh, hh, Option.bind_some, hu, Option.bind_some] at ht
      rcases hn : m.place v u with _ | n
      · obtain ⟨c, hc, hnone⟩ := defined_of_monitor (monitor_place m v u) hs hlive (hexists hi) hn
        cases hc
        cases hnone
      · have hstep : m.monitor.step (.address v u.toAgent.address) = some n.monitor := by
          rw [← monitor_place, hn, Option.map_some]
        have hthere : (n.monitor.agents v).isSome := by
          obtain ⟨b, hb, hcall⟩ := Option.bind_eq_some_iff.mp hstep
          rw [(call_eq_some hcall).2 v, Option.isSome_map]
          exact hexists hi
        rw [hn, Option.bind_some] at ht
        dsimp only at ht
        split_ifs at ht
        obtain ⟨c, hc, hnone⟩ := defined_of_monitor (monitor_refreshIp n v env.insert) (step_sound hs hstep)
          (step_alive hs hlive hstep) hthere ht
        cases hc
        exact absurd hnone (insert_defined _ _ _)
  | computeState v base ifaces =>
    obtain ⟨c, hc, -⟩ := defined_of_monitor (monitor_computeState m v base ifaces) hs hlive (hexists hi) ht
    cases hc
  | address v addr =>
    obtain ⟨c, hc, hnone⟩ := defined_of_monitor (monitor_address m v addr) hs hlive (hexists hi) ht
    cases hc
    cases hnone
  | destroy v =>
    obtain ⟨c, hc, hnone⟩ := defined_of_monitor (monitor_destroy m v) hs hlive (hexists hi) ht
    cases hc
    cases hnone
  | task env =>
    obtain ⟨c, hc, hnone⟩ := defined_of_monitor (n := m.monitor) (j := .task env) (monitor_call m _) hs hlive trivial ht
    cases hc
    exact Or.inl ⟨env, rfl, hnone⟩
  | onTimer =>
    obtain ⟨c, hc, hnone⟩ := defined_of_monitor (n := m.monitor) (j := .onTimer) (monitor_call m _) hs hlive trivial ht
    cases hc
    cases hnone
  | handleEvent oninput recv now =>
    obtain ⟨c, hc, hnone⟩ := defined_of_monitor (n := m.monitor) (j := .handleEvent oninput recv now)
      (monitor_call m _) hs hlive trivial ht
    cases hc
    cases hnone

theorem always_alive (pid : Nat) (workers : WorkerId → Icmp.Worker) (hosts : WorkerId → Option Host) (is : List Input) :
    Always Hosts.step (fun m => Icmp.Sound m.controller ∧ m.Alive) (Hosts.init pid workers hosts) is := by
  have hfirst : Icmp.Sound (Hosts.init pid workers hosts).monitor.controller ∧ (Hosts.init pid workers hosts).monitor.Alive :=
    ⟨Icmp.sound_init pid workers, fun w hw => by cases hw⟩
  have inv : ∀ js, Always Monitor.step (fun n => Icmp.Sound n.controller ∧ n.Alive) (Hosts.init pid workers hosts).monitor js :=
    always_of_step (fun _ _ _ hs ht => ⟨step_sound hs.1 ht, step_alive hs.1 hs.2 ht⟩) hfirst
  refine (hosts_project.always trivial (anything_along _ is) (inv _)).mono fun m hm => ⟨hm.1, fun w hw => ?_⟩
  exact Option.isSome_map.symm.trans (hm.2 w hw)

end UdjatNetwork.Ip
