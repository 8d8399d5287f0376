import UdjatNetwork.Ip.Monitor
import UdjatNetwork.Support.Projection
import UdjatNetwork.Theorems.AgentSteps
import UdjatNetwork.Theorems.History

/-! # What agents see of their controller

Agents share one controller, whose calls reach them in the order of its list. Each agent by itself is then the machine
of `Ip/Agent.lean`, and knows of the results of its own worker only. -/

namespace UdjatNetwork.Ip
open Machine Monitor
open Icmp (WorkerId Event Sound checking World)

variable {m t : Monitor} {w : WorkerId} {i : Input}

/-- The call of the controller that a step may make. -/
def Monitor.Input.call : Input → Option Icmp.Controller.Input
  | .refresh w env => some (.insert w env)
  | .computeState _ _ _ => none
  | .address w addr => some (.address w addr)
  | .destroy w => some (.remove w)
  | .onTimer => some .onTimer
  | .task env => some (.task env)
  | .handleEvent oninput recv now => some (.handleEvent oninput recv now)

/-- No agent leaves its `set` by an exception, and no packet of an unexpected type takes a host from the list. -/
def Monitor.Faultless (m : Monitor) (i : Input) : Prop := ∀ c ∈ i.call, ¬ c.Throws ∧ ¬ m.controller.Loses c

/-- Whether `ICMP::Worker::start` of the agent would get through. -/
def Monitor.starts (m : Monitor) (w : WorkerId) (env : Icmp.Controller.InsertEnv) : Bool :=
  match m.controller.insert w env with
  | .ok _ => true
  | _ => false

/-- The call of the agent of a worker that a step is. -/
def asked (w : WorkerId) (m : Monitor) : Input → List Agent.Input
  | .refresh v env => if v = w then [.refresh (m.starts v env)] else []
  | .computeState v base ifaces => if v = w then [.computeState base ifaces] else []
  | .address v addr => if v = w then [.address addr] else []
  | _ => []

/-- A call of an agent, whatever comes of it. -/
inductive Agent.Call where
  | refresh
  | computeState (base : Level) (ifaces : Option (List Interface))
  | address (addr : Address)

/-- The calls among the inputs of an agent, and its results. -/
def Agent.Input.calls : Agent.Input → List Agent.Call
  | .refresh _ => [.refresh]
  | .result _ _ => []
  | .computeState base ifaces => [.computeState base ifaces]
  | .address addr => [.address addr]

def Agent.Input.results : Agent.Input → List (Icmp.Response × Address)
  | .result response source => [(response, source)]
  | _ => []

/-- The calls of the agent of a worker among the steps, and the results of the worker in the log. -/
def callsOf (w : WorkerId) : Input → List Agent.Call
  | .refresh v _ => if v = w then [.refresh] else []
  | .computeState v base ifaces => if v = w then [.computeState base ifaces] else []
  | .address v addr => if v = w then [.address addr] else []
  | _ => []

def resultsOf (w : WorkerId) : Event → List (Icmp.Response × Address)
  | .set _ v response source => if v = w then [(response, source)] else []
  | _ => []

/-! ### Events -/

/-- What an event does to the agent of a worker. -/
def Agent.hear (w : WorkerId) (a : Agent) : Event → Agent
  | .set _ v response source => if v = w then a.set response source else a
  | _ => a

/-- An event, as an input of the agent of a worker. -/
def heard (w : WorkerId) : Event → List Agent.Input
  | .set _ v response source => if v = w then [.result response source] else []
  | _ => []

theorem set_running (a : Agent) (running : Bool) (response : Icmp.Response) (source : Address) :
    ({ a with running } : Agent).set response source = { a.set response source with running } := by
  rw [set_eq, set_eq]
  split_ifs
  · rfl
  · rfl

theorem hear_address (a : Agent) (address : Address) (e : Event) :
    Agent.hear w { a with address } e = { Agent.hear w a e with address } := by
  cases e with
  | set n v response source =>
    simp only [Agent.hear, set_eq]
    split_ifs <;> rfl
  | inserted | removed => rfl

theorem foldl_hear_address (a : Agent) (address : Address) (es : List Event) :
    es.foldl (Agent.hear w) { a with address } = { es.foldl (Agent.hear w) a with address } := by
  induction es generalizing a with
  | nil => rfl
  | cons e es ih => rw [List.foldl_cons, hear_address, ih, List.foldl_cons]

theorem hear_other {e : Event} (he : e.worker ≠ w) (a : Agent) : Agent.hear w a e = a := by
  cases e with
  | set n v response source => exact if_neg he
  | inserted | removed => rfl

theorem heard_other {e : Event} (he : e.worker ≠ w) : heard w e = [] := by
  cases e with
  | set n v response source => exact if_neg he
  | inserted | removed => rfl

/-- Results of a worker that its flag allows are inputs that the agent takes. -/
theorem exec_heard {running running' : Bool} {es : List Event} (hes : ∀ e ∈ es, e.IsResult ∨ e.worker ≠ w)
    (hrun : exec (checking w) running es = some running') (a : Agent) :
    exec Agent.step { a with running } (es.flatMap (heard w)) =
      some { es.foldl (Agent.hear w) a with running := running' } := by
  induction es generalizing a running with
  | nil =>
    cases hrun
    rfl
  | cons e es ih =>
    obtain ⟨he, hrest⟩ := List.forall_mem_cons.mp hes
    obtain ⟨next, hnext, hrun⟩ := exec_cons_eq_some.mp hrun
    rw [List.flatMap_cons, List.foldl_cons]
    by_cases hw : e.worker = w
    · obtain ⟨n, v, response, source, -, rfl⟩ := he.resolve_right (not_not.mpr hw)
      obtain rfl : v = w := hw
      cases running with
      | false => simp [checking, Event.worker] at hnext
      | true =>
        obtain rfl : next = false := by simpa [checking, Event.worker, eq_comm] using hnext
        have hset : Agent.step { a with running := true } (.result response source) =
            some { a.set response source with running := false } := by
          simp only [Agent.step, if_true, Agent.result, set_running]
        simp only [heard, if_true, List.singleton_append, exec, hset, Option.bind_some, Agent.hear]
        exact ih hrest hrun (a.set response source)
    · obtain rfl : running = next := by simpa [Icmp.checking_other hw] using hnext
      rw [heard_other hw, hear_other hw]
      exact ih hrest hrun a

/-! ### Calls of the controller -/

theorem notify_eq_some {agents agents' : WorkerId → Option Agent} {es : List Event} (h : notify agents es = some agents')
    (w : WorkerId) : agents' w = (agents w).map fun a => es.foldl (Agent.hear w) a := by
  induction es generalizing agents with
  | nil =>
    cases h
    exact Option.map_id'.symm
  | cons e es ih =>
    cases e with
    | inserted | removed => exact ih h
    | set n v response source =>
      obtain ⟨a, ha, h⟩ := Option.bind_eq_some_iff.mp h
      rw [ih h]
      by_cases hv : v = w
      · subst hv
        rw [Function.update_self, ha, Option.map_some, Option.map_some, List.foldl_cons, Agent.hear, if_pos rfl]
      · rw [Function.update_of_ne (Ne.symm hv)]
        refine congrArg (fun f => (agents w).map f) (funext fun a => ?_)
        rw [List.foldl_cons, Agent.hear, if_neg hv]

theorem news_eq {s t : Icmp.Controller} {es : List Event} (h : t.world.log = s.world.log ++ es) : news s t = es := by
  rw [news, h, List.drop_left]

theorem call_eq_some {i : Icmp.Controller.Input} (h : m.call i = some t) :
    m.controller.step i = some t.controller ∧
      ∀ w, t.agents w = (m.agents w).map fun a => (news m.controller t.controller).foldl (Agent.hear w) a := by
  obtain ⟨controller, hstep, h⟩ := Option.bind_eq_some_iff.mp h
  obtain ⟨agents, hagents, rfl⟩ := Option.map_eq_some_iff.mp h
  exact ⟨hstep, notify_eq_some hagents⟩

theorem agent_eq_some {a : Agent} : m.agent w = some a ↔ ∃ b, m.agents w = some b ∧
    a = { b with address := (m.controller.world.workers w).addr, running := m.controller.world.busy w } := by
  unfold Monitor.agent
  rw [Option.map_eq_some_iff]
  exact exists_congr fun b => and_congr_right fun _ => eq_comm

/-- A call whose events are results, or concern other workers, is for the agent what it hears of it. -/
theorem call_heard {c : Icmp.Controller.Input} {P : Event → Prop} {a : Agent} (hs : Sound m.controller)
    (hthrows : ¬ c.Throws) (hloses : ¬ m.controller.Loses c) (hext : m.controller.world.Extends P t.controller.world)
    (hP : ∀ e, P e → e.IsResult ∨ e.worker ≠ w) (hm : m.agent w = some a) (ht : m.call c = some t) :
    ∃ b, t.agent w = some b ∧
      exec Agent.step a ((news m.controller t.controller).flatMap (heard w)) = some b := by
  obtain ⟨hstep, hagents⟩ := call_eq_some ht
  obtain ⟨a, ha, rfl⟩ := agent_eq_some.mp hm
  obtain ⟨es, hlog, hchecks⟩ := Icmp.step_checking hs hthrows hloses hstep
  obtain ⟨haddr, ⟨es', hlog', hes⟩, -⟩ := hext
  obtain rfl : es = es' := List.append_cancel_left (hlog.symm.trans hlog')
  have hb : t.agents w = some (es.foldl (Agent.hear w) a) := by rw [hagents, ha, news_eq hlog, Option.map_some]
  refine ⟨_, agent_eq_some.mpr ⟨_, hb, rfl⟩, ?_⟩
  rw [news_eq hlog, haddr, exec_heard (fun e he => hP e (hes e he)) (hchecks w)
    { a with address := (m.controller.world.workers w).addr }, foldl_hear_address]

/-- What the agent of a worker takes in a step: what it is asked, and then what it hears. -/
def inputs (w : WorkerId) (m : Monitor) (i : Input) : List Agent.Input :=
  asked w m i ++ ((m.step i).map fun t => (news m.controller t.controller).flatMap (heard w)).getD []

/-! ### Calls of agents -/

theorem agent_store_self {a b : Agent} (ha : m.agent w = some a) (haddr : b.address = a.address)
    (hrunning : b.running = a.running) : (m.store w b).agent w = some b := by
  obtain ⟨a, -, rfl⟩ := agent_eq_some.mp ha
  refine agent_eq_some.mpr ⟨b, Function.update_self _ _ _, ?_⟩
  change b.address = (m.controller.world.workers w).addr at haddr
  change b.running = m.controller.world.busy w at hrunning
  change b = { b with address := (m.controller.world.workers w).addr, running := m.controller.world.busy w }
  rw [← haddr, ← hrunning]

theorem agent_store_of_ne {v : WorkerId} (hv : v ≠ w) (b : Agent) : (m.store v b).agent w = m.agent w := by
  have hagents : (m.store v b).agents w = m.agents w := Function.update_of_ne (Ne.symm hv) _ _
  unfold Monitor.agent
  rw [hagents]
  rfl

/-- Without an address, without the check, or while one goes on, a refresh does not start the worker. -/
theorem refresh_idle {a : Agent} (h : (a.address.isEmpty || !a.check || a.running) = true) (start : Bool) :
    a.refresh start = a.refresh false ∧
      ∃ b, (a.refresh false).state? = some b ∧ b.address = a.address ∧ b.running = a.running := by
  unfold Agent.refresh
  cases hempty : a.address.isEmpty with
  | true =>
    refine ⟨rfl, ?_⟩
    simp only [if_true]
    split
    · refine ⟨_, rfl, set_address _ _, ?_⟩
      rw [set_eq]
      split_ifs <;> rfl
    · exact ⟨a, rfl, rfl, rfl⟩
  | false =>
    have hcheck : (a.check && !a.running) = false := by
      rw [hempty] at h
      revert h
      cases a.check <;> cases a.running <;> simp
    simp only [hcheck, Bool.false_eq_true, if_false]
    exact ⟨trivial, a, rfl, rfl, rfl⟩

theorem refresh_starts {a : Agent} (h : ¬ (a.address.isEmpty || !a.check || a.running) = true) (start : Bool) :
    a.running = false ∧ (a.refresh start).state? = some { a with running := start } := by
  simp only [Bool.or_eq_true, Bool.not_eq_true', not_or, Bool.not_eq_true, Bool.not_eq_false] at h
  obtain ⟨⟨hempty, hcheck⟩, hrunning⟩ := h
  refine ⟨hrunning, ?_⟩
  unfold Agent.refresh
  cases start with
  | true => simp [hempty, hcheck, hrunning]
  | false =>
    have ha : ({ a with running := false } : Agent) = a := by rw [← hrunning]
    rw [ha]
    simp [hempty, hcheck, hrunning]

/-! ### Steps -/

theorem exec_singleton {a b : Agent} {k : Agent.Input} (h : Agent.step a k = some b) : exec Agent.step a [k] = some b := by
  rw [exec, h]
  rfl

/-- A step that changes the agent of another worker, and calls no other. -/
theorem step_store {v : WorkerId} {a b : Agent} {k : Agent.Input} (hv : m.agent v = some b) (ha : m.agent w = some a)
    {c : Agent} (hk : Agent.step b k = some c) (haddr : c.address = b.address) (hrunning : c.running = b.running) :
    ∃ d, (m.store v c).agent w = some d ∧ exec Agent.step a (if v = w then [k] else []) = some d := by
  by_cases hvw : v = w
  · subst hvw
    obtain rfl : b = a := Option.some.inj (hv.symm.trans ha)
    rw [if_pos rfl]
    exact ⟨c, agent_store_self ha haddr hrunning, exec_singleton hk⟩
  · rw [if_neg hvw]
    exact ⟨a, (agent_store_of_ne hvw c).trans ha, rfl⟩

theorem inputs_eq (ht : m.step i = some t) :
    inputs w m i = asked w m i ++ (news m.controller t.controller).flatMap (heard w) := by
  rw [inputs, ht]
  rfl

theorem news_self (s : Icmp.Controller) : news s s = [] := by
  rw [news, List.drop_length]

/-- The insertion of a worker is the start of its own agent; the others hear of the results that follow. -/
theorem insert_heard {v : WorkerId} {env : Icmp.Controller.InsertEnv} {a b : Agent} (hs : Sound m.controller)
    (hthrows : ¬ (Icmp.Controller.Input.insert v env).Throws) (hv : m.agent v = some b)
    (hstarts : ¬ (b.address.isEmpty || !b.check || b.running) = true) (ha : m.agent w = some a)
    (ht : m.call (.insert v env) = some t) :
    ∃ d, t.agent w = some d ∧ exec Agent.step a ((if v = w then [.refresh (m.starts v env)] else []) ++
      (news m.controller t.controller).flatMap (heard w)) = some d := by
  obtain ⟨hstep, hagents⟩ := call_eq_some ht
  by_cases hvw : v = w
  swap
  · rw [if_neg hvw, List.nil_append]
    refine call_heard hs hthrows id (Icmp.step_extends (fun _ _ he => by cases he) hstep) (fun e he => ?_) ha ht
    rcases he with he | ⟨n, rfl⟩
    · exact Or.inl he
    · exact Or.inr hvw
  subst hvw
  obtain rfl : b = a := Option.some.inj (hv.symm.trans ha)
  obtain ⟨a, hm, rfl⟩ := agent_eq_some.mp ha
  obtain ⟨hidle, hrefresh⟩ := refresh_starts hstarts (m.starts v env)
  rw [if_pos rfl]
  rcases Icmp.insert_extends hstep with ⟨⟨u, hu⟩, hworld⟩ | ⟨⟨u, hu⟩, -, haddr, ⟨es, hlog, hes⟩, -⟩
  · have hnews : news m.controller t.controller = [] := by rw [news, hworld, List.drop_length]
    have hstarted : m.starts v env = false := by rw [Monitor.starts, hu]
    rw [hnews, hstarted]
    rw [hstarted] at hrefresh
    refine ⟨_, agent_eq_some.mpr ⟨a, by rw [hagents, hm, hnews]; rfl, rfl⟩, ?_⟩
    rw [hworld]
    refine exec_singleton (hrefresh.trans ?_)
    change m.controller.world.busy v = false at hidle
    rw [hidle]
  · -- The insertion comes first, and what the agent hears after it is what it may hear while it runs.
    have hlog' : t.controller.world.log = m.controller.world.log ++ (.inserted m.controller.nodes v :: es) := by
      rw [hlog, World.log_record, List.append_assoc]
      rfl
    have hstarted : m.starts v env = true := by rw [Monitor.starts, hu]
    obtain ⟨es', hlog'', hchecks⟩ := Icmp.step_checking hs hthrows id hstep
    obtain rfl : _ = es' := List.append_cancel_left (hlog'.symm.trans hlog'')
    obtain ⟨next, hnext, hrun⟩ := exec_cons_eq_some.mp (hchecks v)
    change m.controller.world.busy v = false at hidle
    obtain rfl : next = true := by simpa [hidle, checking, Event.worker, eq_comm] using hnext
    rw [hstarted] at hrefresh ⊢
    rw [news_eq hlog']
    refine ⟨_, agent_eq_some.mpr ⟨es.foldl (Agent.hear v) a, by rw [hagents, hm, news_eq hlog']; rfl, rfl⟩, ?_⟩
    have hheard := exec_heard (fun e he => Or.inl (hes e he)) hrun
      { a with address := (m.controller.world.workers v).addr }
    rw [foldl_hear_address] at hheard
    rw [exec_append, exec_singleton (k := .refresh true) hrefresh, Option.bind_some, haddr]
    exact hheard

/-- A step takes the agent of a worker through its inputs. -/
theorem step_inputs {a : Agent} (hs : Sound m.controller) (hc : m.Faultless i) (hd : i ≠ .destroy w)
    (ha : m.agent w = some a) (ht : m.step i = some t) :
    ∃ b, t.agent w = some b ∧ exec Agent.step a (inputs w m i) = some b := by
  rw [inputs_eq ht]
  have quiet : ∀ {c : Icmp.Controller.Input} {P : Event → Prop}, i.call = some c → asked w m i = [] →
      m.controller.world.Extends P t.controller.world → (∀ e, P e → e.IsResult ∨ e.worker ≠ w) → m.call c = some t →
      ∃ b, t.agent w = some b ∧
        exec Agent.step a (asked w m i ++ (news m.controller t.controller).flatMap (heard w)) = some b := by
    intro c P hcall hasked hext hP hstep
    obtain ⟨hthrows, hloses⟩ := hc c hcall
    rw [hasked, List.nil_append]
    exact call_heard hs hthrows hloses hext hP ha hstep
  cases i with
  | refresh v env =>
    obtain ⟨b, hv, ht⟩ := Option.bind_eq_some_iff.mp ht
    split_ifs at ht with hidle
    · obtain ⟨c, hrefresh, rfl⟩ := Option.map_eq_some_iff.mp ht
      obtain ⟨hsame, c', hc', haddr, hrunning⟩ := refresh_idle hidle (m.starts v env)
      obtain rfl : c' = c := Option.some.inj (hc'.symm.trans hrefresh)
      have hk : Agent.step b (.refresh (m.starts v env)) = some c' := by rw [Agent.step, hsame, hrefresh]
      have hnews : news m.controller (m.store v c').controller = [] := news_self _
      rw [hnews, List.flatMap_nil, List.append_nil]
      exact step_store hv ha hk haddr hrunning
    · exact insert_heard hs (hc _ rfl).1 hv hidle ha ht
  | computeState v base ifaces =>
    obtain ⟨b, hv, rfl⟩ := Option.map_eq_some_iff.mp ht
    have hkeeps : (b.computeState base ifaces).1.address = b.address ∧ (b.computeState base ifaces).1.running = b.running := by
      unfold Agent.computeState
      split <;> exact ⟨rfl, rfl⟩
    have hnews : news m.controller (m.store v (b.computeState base ifaces).1).controller = [] := news_self _
    rw [hnews, List.flatMap_nil, List.append_nil]
    exact step_store hv ha rfl hkeeps.1 hkeeps.2
  | address v addr =>
    obtain ⟨b, hv, ht⟩ := Option.bind_eq_some_iff.mp ht
    obtain ⟨hstep, hagents⟩ := call_eq_some ht
    obtain ⟨a, hm, rfl⟩ := agent_eq_some.mp ha
    have hworld : t.controller.world = m.controller.world.setAddr v addr :=
      (congrArg Icmp.Controller.world (Option.some.inj hstep)).symm
    have hnews : news m.controller t.controller = [] := by rw [news, hworld, World.log_setAddr, List.drop_length]
    refine ⟨_, agent_eq_some.mpr ⟨a, by rw [hagents, hm, hnews]; rfl, rfl⟩, ?_⟩
    rw [hnews, List.flatMap_nil, List.append_nil, hworld, World.busy_setAddr]
    by_cases hvw : v = w
    · have haddr : ((m.controller.world.setAddr v addr).workers w).addr = addr := by
        unfold World.setAddr
        dsimp only
        rw [if_pos hvw.symm]
      rw [show asked w m (.address v addr) = [.address addr] from if_pos hvw, haddr]
      exact exec_singleton (k := .address addr) rfl
    · have haddr : (m.controller.world.setAddr v addr).workers w = m.controller.world.workers w := if_neg (Ne.symm hvw)
      rw [show asked w m (.address v addr) = [] from if_neg hvw, haddr]
      rfl
  | destroy v =>
    have hvw : v ≠ w := fun he => hd (he ▸ rfl)
    obtain ⟨b, hv, ht⟩ := Option.bind_eq_some_iff.mp ht
    obtain ⟨u, hu, rfl⟩ := Option.map_eq_some_iff.mp ht
    have hother : ∀ e, (∃ n, e = Event.removed n v) → e.IsResult ∨ e.worker ≠ w := by
      rintro e ⟨n, rfl⟩
      exact Or.inr hvw
    obtain ⟨c, hc', hexec⟩ := call_heard (t := u) hs id id
      (Icmp.step_extends (fun _ _ he => by cases he) (call_eq_some hu).1) hother ha hu
    obtain ⟨d, hd', rfl⟩ := agent_eq_some.mp hc'
    exact ⟨_, agent_eq_some.mpr ⟨d, (Function.update_of_ne (Ne.symm hvw) _ _).trans hd', rfl⟩, hexec⟩
  | onTimer =>
    exact quiet rfl rfl (Icmp.step_extends (fun _ _ he => by cases he) (call_eq_some ht).1) (fun _ he => Or.inl he) ht
  | task env =>
    exact quiet rfl rfl (Icmp.step_extends (fun _ _ he => by cases he) (call_eq_some ht).1) (fun _ he => Or.inl he) ht
  | handleEvent oninput recv now =>
    exact quiet rfl rfl (Icmp.step_extends (fun _ _ he => by cases he) (call_eq_some ht).1) (fun _ he => Or.inl he) ht

/-! ### Runs -/

/-- A step of the agents and their controller is a step of the controller, or does not concern it. -/
theorem step_controller (ht : m.step i = some t) :
    t.controller = m.controller ∨ ∃ c ∈ i.call, m.controller.step c = some t.controller := by
  cases i with
  | refresh v env =>
    obtain ⟨b, -, ht⟩ := Option.bind_eq_some_iff.mp ht
    split_ifs at ht with hidle
    · obtain ⟨c, -, rfl⟩ := Option.map_eq_some_iff.mp ht
      exact Or.inl rfl
    · exact Or.inr ⟨_, rfl, (call_eq_some ht).1⟩
  | computeState v base ifaces =>
    obtain ⟨b, -, rfl⟩ := Option.map_eq_some_iff.mp ht
    exact Or.inl rfl
  | address v addr =>
    obtain ⟨b, -, ht⟩ := Option.bind_eq_some_iff.mp ht
    exact Or.inr ⟨_, rfl, (call_eq_some ht).1⟩
  | destroy v =>
    obtain ⟨b, -, ht⟩ := Option.bind_eq_some_iff.mp ht
    obtain ⟨u, hu, rfl⟩ := Option.map_eq_some_iff.mp ht
    exact Or.inr ⟨_, rfl, (call_eq_some hu).1⟩
  | onTimer | task | handleEvent => exact Or.inr ⟨_, rfl, (call_eq_some ht).1⟩

theorem step_sound (hs : Sound m.controller) (ht : m.step i = some t) : Sound t.controller := by
  rcases step_controller ht with he | ⟨c, -, hc⟩
  · rwa [he]
  · exact Icmp.step_sound hs hc

theorem step_news (hs : Sound m.controller) (ht : m.step i = some t) :
    t.controller.world.log = m.controller.world.log ++ news m.controller t.controller := by
  rcases step_controller ht with he | ⟨c, -, hc⟩
  · rw [he, news_self, List.append_nil]
  · obtain ⟨es, hes⟩ := (Icmp.step_moves hs.numbered hc).log_grows
    have hlog : t.controller.world.log = m.controller.world.log ++ es := hes.symm
    rw [news_eq hlog, hlog]

/-- While nothing goes wrong, and as long as it exists, the agent of a worker is the machine of an agent. -/
theorem projects (w : WorkerId) :
    Projects step Agent.step (fun m => Sound m.controller ∧ (m.agent w).isSome)
      (fun m i => m.Faultless i ∧ i ≠ .destroy w) (fun m => (m.agent w).getD {}) (inputs w) where
  keeps m i t hI hc ht := by
    obtain ⟨a, ha⟩ := Option.isSome_iff_exists.mp hI.2
    obtain ⟨b, hb, -⟩ := step_inputs hI.1 hc.1 hc.2 ha ht
    exact ⟨step_sound hI.1 ht, Option.isSome_iff_exists.mpr ⟨b, hb⟩⟩
  run m i t hI hc ht := by
    obtain ⟨a, ha⟩ := Option.isSome_iff_exists.mp hI.2
    obtain ⟨b, hb, hexec⟩ := step_inputs hI.1 hc.1 hc.2 ha ht
    rw [ha, hb]
    exact hexec

theorem asked_results : (asked w m i).flatMap Agent.Input.results = [] := by
  cases i with
  | refresh | computeState | address =>
    unfold asked
    dsimp only
    split_ifs <;> rfl
  | destroy | onTimer | task | handleEvent => rfl

theorem asked_calls : (asked w m i).flatMap Agent.Input.calls = callsOf w i := by
  cases i with
  | refresh | computeState | address =>
    unfold asked callsOf
    dsimp only
    split_ifs <;> rfl
  | destroy | onTimer | task | handleEvent => rfl

theorem heard_results (es : List Event) :
    (es.flatMap (heard w)).flatMap Agent.Input.results = es.flatMap (resultsOf w) := by
  rw [List.flatMap_assoc]
  refine congrArg (fun f => es.flatMap f) (funext fun e => ?_)
  cases e with
  | set =>
    unfold heard resultsOf
    dsimp only
    split_ifs <;> rfl
  | inserted | removed => rfl

theorem heard_calls (es : List Event) : (es.flatMap (heard w)).flatMap Agent.Input.calls = [] := by
  rw [List.flatMap_assoc, List.flatMap_eq_nil_iff]
  intro e _
  cases e with
  | set =>
    unfold heard
    dsimp only
    split_ifs <;> rfl
  | inserted | removed => rfl

/-- In every run in which no agent throws in its `set` and no packet of an unexpected type takes a host from the list,
    whatever the other agents do, each agent that is not destroyed runs as it would by itself on what it takes step by
    step: the calls that were made of it and, among them, exactly the results that the controller has told of its
    worker. --/
theorem agents_refine (pid : Nat) (workers : WorkerId → Icmp.Worker) (agents : WorkerId → Option Agent) (is : List Input)
    (hfaultless : Along step Faultless (init pid workers agents) is) (hm : exec step (init pid workers agents) is = some m)
    (w : WorkerId) (hlive : .destroy w ∉ is) {a : Agent} (ha : (init pid workers agents).agent w = some a) :
    let js := trace step (inputs w) (init pid workers agents) is
    ∃ b, exec Agent.step a js = some b ∧ m.agent w = some b ∧
      js.flatMap Agent.Input.results = m.controller.world.log.flatMap (resultsOf w) ∧
      js.flatMap Agent.Input.calls = is.flatMap (callsOf w) := by
  intro js
  have hI : Sound (init pid workers agents).controller ∧ ((init pid workers agents).agent w).isSome :=
    ⟨Icmp.sound_init pid workers, Option.isSome_iff_exists.mpr ⟨a, ha⟩⟩
  have hC : Along step (fun m i => m.Faultless i ∧ i ≠ .destroy w) (init pid workers agents) is :=
    hfaultless.and (along_of_forall fun i hi he => hlive (he ▸ hi))
  obtain ⟨b, hb, hrun⟩ := (projects w).exec_some hI.1 ha hC hm
  have hresults : ∀ m i t, Sound m.controller ∧ (m.agent w).isSome → m.Faultless i ∧ i ≠ .destroy w →
      m.step i = some t → t.controller.world.log.flatMap (resultsOf w) =
        m.controller.world.log.flatMap (resultsOf w) ++ (inputs w m i).flatMap Agent.Input.results := by
    intro m i t hI _ ht
    rw [inputs_eq ht, List.flatMap_append, asked_results, List.nil_append, heard_results, ← List.flatMap_append,
      ← step_news hI.1 ht]
  have hcalls : ∀ m i t, Sound m.controller ∧ (m.agent w).isSome → m.Faultless i ∧ i ≠ .destroy w →
      m.step i = some t → (inputs w m i).flatMap Agent.Input.calls = callsOf w i := by
    intro m i t _ _ ht
    rw [inputs_eq ht, List.flatMap_append, asked_calls, heard_calls, List.append_nil]
  exact ⟨b, hrun, hb, (trace_output (projects w).keeps hresults hI hC hm).symm,
    trace_inputs (projects w).keeps hcalls hI hC hm⟩

/-- The result for the first of two agents, which is refreshed twice, gets its timeout and loses its address. --/
theorem agents_refine_two :
    let e : Icmp.Controller.InsertEnv := { start := { socket := some 7 } }
    let s := init 1 (fun _ => { addr := .inet 1 }) fun w => if w < 2 then some {} else none
    let is : List Input := [.refresh 0 e, .refresh 1 e, .refresh 0 e, .destroy 1, .onTimer,
      .task fun _ => { now := 10 }, .address 0 .empty]
    let js := trace step (inputs 0) s is
    ∃ m, exec step s is = some m ∧ m.controller.world.log.flatMap (resultsOf 0) = [(.timeout, .empty)] ∧
      ∃ b, exec Agent.step { address := .inet 1 } js = some b ∧ m.agent 0 = some b ∧
        js.flatMap Agent.Input.results = m.controller.world.log.flatMap (resultsOf 0) ∧
        js.flatMap Agent.Input.calls = is.flatMap (callsOf 0) := by
  intro e s is js
  have hrun : (exec step s is).map (fun m => m.controller.world.log.flatMap (resultsOf 0)) =
      some [(.timeout, .empty)] := by decide
  obtain ⟨m, hm, htold⟩ := Option.map_eq_some_iff.mp hrun
  have hfaultless : ∀ i ∈ is, ∀ m : Monitor, m.Faultless i := by
    intro i hi m c hc
    simp only [is, List.mem_cons, List.not_mem_nil, or_false] at hi
    rcases hi with rfl | rfl | rfl | rfl | rfl | rfl | rfl <;> cases hc
    · exact ⟨fun ⟨_, hn⟩ => (by cases hn), id⟩
    · exact ⟨fun ⟨_, hn⟩ => (by cases hn), id⟩
    · exact ⟨fun ⟨_, hn⟩ => (by cases hn), id⟩
    · exact ⟨id, id⟩
    · exact ⟨id, id⟩
    · exact ⟨fun ⟨_, _, hn⟩ => (by cases hn), id⟩
    · exact ⟨id, id⟩
  have halong : Along step Faultless s is :=
    (along_of_forall (C := fun i => i ∈ is) fun _ hi => hi).mono fun m i hi => hfaultless i hi m
  exact ⟨m, hm, htold, agents_refine 1 _ _ is halong hm 0 (by simp [is]) rfl⟩

end UdjatNetwork.Ip
