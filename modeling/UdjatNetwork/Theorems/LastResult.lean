import UdjatNetwork.Theorems.Monitor

/-! # The last result of an agent

Whatever goes wrong between agents and controller, an agent has the ICMP state for the last result that its worker was
told, and no call reaches an agent that was destroyed. -/

namespace UdjatNetwork.Ip
open Machine Monitor
open Icmp (WorkerId Event Sound World Response)

variable {m t : Monitor} {w : WorkerId} {i : Input} {a b : Agent}

/-- An agent has followed the responses: its ICMP state is the one for the last of them, which it takes from its own
    states if it can, and it was updated once for each. -/
structure Agent.Followed (a : Agent) (responses : List Response) (b : Agent) : Prop where
  response : b.response = .invalid
  icmpStates : b.icmpStates = a.icmpStates
  icmpState : b.icmpState = (responses.getLast?.map a.stateFor).getD a.icmpState
  updates : b.updates = a.updates + responses.length

/-- The responses for a worker, in the log. -/
def responsesOf (w : WorkerId) : Event → List Response
  | .set _ v response _ => if v = w then [response] else []
  | _ => []

/-- Each agent has followed the responses that its worker was told. -/
def Monitor.Informed (agents : WorkerId → Option Agent) (m : Monitor) : Prop :=
  ∀ w b, m.agent w = some b → ∃ a, agents w = some a ∧ a.Followed (m.controller.world.log.flatMap (responsesOf w)) b

/-- The agent that is called exists. -/
def Monitor.Exists (m : Monitor) : Input → Prop
  | .refresh w _ | .computeState w _ _ | .address w _ | .destroy w => (m.agents w).isSome
  | _ => True

/-- A busy worker belongs to an agent that exists. -/
def Monitor.Alive (m : Monitor) : Prop := ∀ w, m.controller.world.busy w = true → (m.agents w).isSome

/-! ### Results -/

namespace Agent.Followed

theorem refl (h : a.response = .invalid) : a.Followed [] a := ⟨h, rfl, rfl, rfl⟩

/-- Calls that leave all of it alone. -/
theorem of_eq {c : Agent} {rs : List Response} (h : a.Followed rs b) (hresponse : c.response = b.response)
    (hstates : c.icmpStates = b.icmpStates) (hstate : c.icmpState = b.icmpState) (hupdates : c.updates = b.updates) :
    a.Followed rs c :=
  ⟨hresponse.trans h.response, hstates.trans h.icmpStates, hstate.trans h.icmpState, hupdates.trans h.updates⟩

theorem set {rs : List Response} (h : a.Followed rs b) {r : Response} (hr : r ≠ .invalid) (source : Address) :
    a.Followed (rs ++ [r]) (b.set r source) := by
  have hstate : b.stateFor r = a.stateFor r := by rw [Agent.stateFor, h.icmpStates, Agent.stateFor]
  rw [set_eq, if_neg (h.response ▸ hr)]
  refine ⟨h.response, h.icmpStates, ?_, ?_⟩
  · rw [List.getLast?_concat, Option.map_some, Option.getD_some]
    exact hstate
  · change b.updates + 1 = _
    rw [h.updates, List.length_append, Nat.add_assoc]
    rfl

theorem hear {rs : List Response} (h : a.Followed rs b) {e : Event} (he : e.IsResult ∨ e.isSet = false) (w : WorkerId) :
    a.Followed (rs ++ responsesOf w e) (b.hear w e) := by
  rcases he with ⟨n, v, r, source, hr, rfl⟩ | he
  · unfold Agent.hear responsesOf
    by_cases hv : v = w
    · simp only [if_pos hv]
      exact h.set hr source
    · simp only [if_neg hv, List.append_nil]
      exact h
  · cases e with
    | set => cases he
    | inserted | removed =>
      change a.Followed (rs ++ []) b
      rwa [List.append_nil]

theorem foldl_hear {rs : List Response} (h : a.Followed rs b) {es : List Event}
    (hes : ∀ e ∈ es, e.IsResult ∨ e.isSet = false) (w : WorkerId) :
    a.Followed (rs ++ es.flatMap (responsesOf w)) (es.foldl (Agent.hear w) b) := by
  induction es generalizing b rs with
  | nil =>
    rw [List.flatMap_nil, List.append_nil]
    exact h
  | cons e es ih =>
    obtain ⟨he, hes⟩ := List.forall_mem_cons.mp hes
    rw [List.flatMap_cons, ← List.append_assoc, List.foldl_cons]
    exact ih (h.hear he w) hes

end Agent.Followed

/-- Of what a call of the controller tells, all that is for an agent is a result. -/
theorem call_news {c : Icmp.Controller.Input} (ht : m.controller.step c = some t.controller) :
    t.controller.world.log = m.controller.world.log ++ news m.controller t.controller ∧
      ∀ e ∈ news m.controller t.controller, (e.IsResult ∨ e.isSet = false) ∧
        ∀ n x, e = .inserted n x → ∃ env, c = .insert x env := by
  have told : ∀ {P : Event → Prop}, m.controller.world.Extends P t.controller.world →
      (∀ e, P e → (e.IsResult ∨ e.isSet = false) ∧ ∀ n x, e = .inserted n x → ∃ env, c = .insert x env) →
      t.controller.world.log = m.controller.world.log ++ news m.controller t.controller ∧
        ∀ e ∈ news m.controller t.controller, (e.IsResult ∨ e.isSet = false) ∧
          ∀ n x, e = .inserted n x → ∃ env, c = .insert x env := by
    rintro P ⟨-, ⟨es, hlog, hes⟩, -⟩ hP
    rw [news_eq hlog]
    exact ⟨hlog, fun e he => hP e (hes e he)⟩
  have results : ∀ e : Event, e.IsResult → (e.IsResult ∨ e.isSet = false) ∧
      ∀ n x, e = .inserted n x → ∃ env, c = .insert x env := by
    rintro e ⟨n, v, r, source, hr, rfl⟩
    exact ⟨Or.inl ⟨n, v, r, source, hr, rfl⟩, fun _ _ he => by cases he⟩
  cases c with
  | insert v env =>
    refine told (Icmp.step_extends (fun _ _ he => by cases he) ht) fun e he => ?_
    rcases he with he | ⟨n, rfl⟩
    · exact results e he
    · exact ⟨Or.inr rfl, fun _ _ he => by cases he; exact ⟨env, rfl⟩⟩
  | remove v =>
    refine told (Icmp.step_extends (fun _ _ he => by cases he) ht) fun e ⟨n, he⟩ => ?_
    subst he
    exact ⟨Or.inr rfl, fun _ _ he => by cases he⟩
  | address v addr =>
    have hworld : t.controller.world = m.controller.world.setAddr v addr :=
      (congrArg Icmp.Controller.world (Option.some.inj ht)).symm
    have hnews : news m.controller t.controller = [] := by rw [news, hworld, World.log_setAddr, List.drop_length]
    rw [hnews, hworld, World.log_setAddr, List.append_nil]
    exact ⟨rfl, fun e he => by cases he⟩
  | onTimer | task | handleEvent =>
    exact told (Icmp.step_extends (fun _ _ he => by cases he) ht) results

/-! ### Steps -/

variable {agents : WorkerId → Option Agent}

theorem informed_agents : m.Informed agents ↔ ∀ w b, m.agents w = some b →
    ∃ a, agents w = some a ∧ a.Followed (m.controller.world.log.flatMap (responsesOf w)) b := by
  constructor
  · intro h w b hb
    obtain ⟨a, ha, hf⟩ := h w _ (agent_eq_some.mpr ⟨b, hb, rfl⟩)
    exact ⟨a, ha, hf.of_eq rfl rfl rfl rfl⟩
  · intro h w b hw
    obtain ⟨b, hb, rfl⟩ := agent_eq_some.mp hw
    obtain ⟨a, ha, hf⟩ := h w b hb
    exact ⟨a, ha, hf.of_eq rfl rfl rfl rfl⟩

theorem call_informed {c : Icmp.Controller.Input} (hm : m.Informed agents) (ht : m.call c = some t) :
    t.Informed agents := by
  rw [informed_agents] at hm ⊢
  obtain ⟨hstep, hagents⟩ := call_eq_some ht
  obtain ⟨hlog, hnews⟩ := call_news hstep
  intro w b hw
  rw [hagents] at hw
  obtain ⟨b, hb, rfl⟩ := Option.map_eq_some_iff.mp hw
  obtain ⟨a, ha, hf⟩ := hm w b hb
  refine ⟨a, ha, ?_⟩
  rw [hlog, List.flatMap_append]
  exact hf.foldl_hear (fun e he => (hnews e he).1) w

theorem store_informed {v : WorkerId} {c : Agent} (hm : m.Informed agents) (hb : m.agent v = some b)
    (hresponse : c.response = b.response) (hstates : c.icmpStates = b.icmpStates) (hstate : c.icmpState = b.icmpState)
    (hupdates : c.updates = b.updates) : (m.store v c).Informed agents := by
  intro w d hd
  by_cases hv : v = w
  · subst hv
    obtain ⟨e, he, rfl⟩ := agent_eq_some.mp hd
    obtain rfl : c = e := Option.some.inj ((Function.update_self v _ _).symm.trans he)
    obtain ⟨a, ha, hf⟩ := hm v b hb
    exact ⟨a, ha, hf.of_eq hresponse hstates hstate hupdates⟩
  · rw [agent_store_of_ne hv] at hd
    exact hm w d hd

/-- A refresh that does not start the worker leaves the ICMP state alone: its `set(invalid)` returns at once. -/
theorem refresh_leaves {c : Agent} (hresponse : b.response = .invalid) (hc : (b.refresh false).state? = some c) :
    c.response = b.response ∧ c.icmpStates = b.icmpStates ∧ c.icmpState = b.icmpState ∧ c.updates = b.updates := by
  obtain ⟨d, hd, rfl | ⟨-, rfl⟩ | ⟨-, rfl⟩⟩ := refresh_cases b false <;> obtain rfl := Option.some.inj (hd.symm.trans hc)
  · exact ⟨rfl, rfl, rfl, rfl⟩
  · rw [set_eq, if_pos hresponse.symm]
    exact ⟨rfl, rfl, rfl, rfl⟩
  · exact ⟨rfl, rfl, rfl, rfl⟩

theorem step_informed (hm : m.Informed agents) (ht : m.step i = some t) : t.Informed agents := by
  cases i with
  | refresh v env =>
    obtain ⟨b, hb, ht⟩ := Option.bind_eq_some_iff.mp ht
    split_ifs at ht
    · obtain ⟨c, hc, rfl⟩ := Option.map_eq_some_iff.mp ht
      obtain ⟨a, -, hf⟩ := hm v b hb
      obtain ⟨hresponse, hstates, hstate, hupdates⟩ := refresh_leaves hf.response hc
      exact store_informed hm hb hresponse hstates hstate hupdates
    · exact call_informed hm ht
  | computeState v base ifaces =>
    obtain ⟨b, hb, rfl⟩ := Option.map_eq_some_iff.mp ht
    have hleaves : ∀ c : Agent, c = (b.computeState base ifaces).1 → c.response = b.response ∧
        c.icmpStates = b.icmpStates ∧ c.icmpState = b.icmpState ∧ c.updates = b.updates := by
      rintro c rfl
      unfold Agent.computeState
      split <;> exact ⟨rfl, rfl, rfl, rfl⟩
    obtain ⟨hresponse, hstates, hstate, hupdates⟩ := hleaves _ rfl
    exact store_informed hm hb hresponse hstates hstate hupdates
  | address v addr =>
    obtain ⟨b, -, ht⟩ := Option.bind_eq_some_iff.mp ht
    exact call_informed hm ht
  | destroy v =>
    obtain ⟨b, -, ht⟩ := Option.bind_eq_some_iff.mp ht
    obtain ⟨u, hu, rfl⟩ := Option.map_eq_some_iff.mp ht
    have hu := informed_agents.mp (call_informed hm hu)
    refine informed_agents.mpr fun w c hc => hu w c ?_
    by_cases hv : w = v
    · rw [hv] at hc
      exact absurd ((Function.update_self v none u.agents).symm.trans hc) (by simp)
    · exact (Function.update_of_ne hv _ _).symm.trans hc
  | onTimer | task | handleEvent => exact call_informed hm ht

/-- In every state of every run, whatever the workers throw and whichever packets arrive, each agent has the ICMP state
    for the last result that the controller has told of its worker, its own one or else the predefined one, and it was
    updated as many times as its worker was told a result. --/
theorem informed_always (pid : Nat) (workers : WorkerId → Icmp.Worker) (agents : WorkerId → Option Agent)
    (hnew : ∀ w a, agents w = some a → a.response = .invalid) (is : List Input) :
    Always step (Informed agents) (init pid workers agents) is := by
  have hfirst : (init pid workers agents).Informed agents := informed_agents.mpr fun w a ha => ⟨a, ha, .refl (hnew w a ha)⟩
  exact always_of_step (fun _ _ _ hs ht => step_informed hs ht) hfirst is

/-- The result at an agent with a state of its own, which is refreshed and gets a timeout. --/
theorem informed_timeout :
    let e : Icmp.Controller.InsertEnv := { start := { socket := some 7 } }
    let agents : WorkerId → Option Agent := fun _ => some { icmpStates := [⟨"slow", .warning, .timeout⟩] }
    Always step (Informed agents) (init 1 (fun _ => { addr := .inet 1 }) agents)
      [.refresh 0 e, .onTimer, .task fun _ => { now := 10 }] := by
  intro e agents
  exact informed_always 1 _ agents (fun w a ha => by cases ha; rfl) _

/-! ### Agents that exist -/

theorem exists_notify {agents : WorkerId → Option Agent} {es : List Event}
    (h : ∀ e ∈ es, e.isSet = true → (agents e.worker).isSome) : ∃ agents', notify agents es = some agents' := by
  induction es generalizing agents with
  | nil => exact ⟨agents, rfl⟩
  | cons e es ih =>
    obtain ⟨he, hes⟩ := List.forall_mem_cons.mp h
    cases e with
    | inserted | removed => exact ih hes
    | set n v response source =>
      obtain ⟨a, ha⟩ := Option.isSome_iff_exists.mp (he rfl)
      have hnext : ∀ x ∈ es, x.isSet = true → (Function.update agents v (some (a.set response source)) x.worker).isSome := by
        intro x hx hset
        by_cases hv : x.worker = v
        · rw [hv, Function.update_self]
          rfl
        · rw [Function.update_of_ne hv]
          exact hes x hx hset
      obtain ⟨agents', hagents⟩ := ih hnext
      exact ⟨agents', Option.bind_eq_some_iff.mpr ⟨a, ha, hagents⟩⟩

/-- Only the worker that is inserted gets busy. -/
theorem call_busy {c : Icmp.Controller.Input} {controller : Icmp.Controller} (hs : Sound m.controller)
    (hc : m.controller.step c = some controller) :
    (∀ x, controller.world.busy x = true → m.controller.world.busy x = true ∨ ∃ env, c = .insert x env) ∧
      ∀ e ∈ news m.controller controller, m.controller.world.busy e.worker = true ∨ ∃ env, c = .insert e.worker env := by
  obtain ⟨es, hlog, hbusy, hes⟩ := Icmp.Moves.told hs.flags (Icmp.step_moves hs.numbered hc)
  obtain ⟨-, hnews⟩ := call_news (t := ⟨controller, m.agents⟩) hc
  have hlog : controller.world.log = m.controller.world.log ++ es := hlog
  have hinsert : ∀ x, (∃ n, .inserted n x ∈ es) → ∃ env, c = .insert x env := by
    rintro x ⟨n, hn⟩
    rw [← news_eq hlog] at hn
    exact (hnews _ hn).2 n x rfl
  rw [news_eq hlog]
  exact ⟨fun x hx => (hbusy x hx).imp_right (hinsert x), fun e he => (hes e he).imp_right (hinsert e.worker)⟩

theorem call_alive {c : Icmp.Controller.Input} (hs : Sound m.controller) (hm : m.Alive)
    (hinsert : ∀ x env, c = .insert x env → (m.agents x).isSome) (ht : m.call c = some t) :
    t.Alive ∧ ∀ w, (t.agents w).isSome = (m.agents w).isSome := by
  obtain ⟨hstep, hagents⟩ := call_eq_some ht
  have hsome : ∀ w, (t.agents w).isSome = (m.agents w).isSome := fun w => by rw [hagents, Option.isSome_map]
  refine ⟨fun w hw => ?_, hsome⟩
  rw [hsome]
  rcases (call_busy hs hstep).1 w hw with hw | ⟨env, he⟩
  · exact hm w hw
  · exact hinsert w env he

/-- A call of the controller is undefined only where the controller is. -/
theorem call_defined {c : Icmp.Controller.Input} (hs : Sound m.controller) (hm : m.Alive)
    (hinsert : ∀ x env, c = .insert x env → (m.agents x).isSome) (ht : m.call c = none) : m.controller.step c = none := by
  by_contra hne
  obtain ⟨controller, hc⟩ := Option.ne_none_iff_exists'.mp hne
  have hexist : ∀ e ∈ news m.controller controller, e.isSet = true → (m.agents e.worker).isSome := by
    intro e he _
    rcases (call_busy hs hc).2 e he with hw | ⟨env, hi⟩
    · exact hm _ hw
    · exact hinsert _ env hi
  obtain ⟨agents, hagents⟩ := exists_notify hexist
  simp [Monitor.call, hc, hagents] at ht

/-- After its removal, a worker is not busy. -/
theorem remove_busy (hs : Sound m.controller) (w : WorkerId) : (m.controller.remove w).world.busy w = false := by
  have hsound : Sound (m.controller.remove w) := Icmp.step_sound (i := .remove w) hs rfl
  have hhosts : (m.controller.remove w).hosts = m.controller.hosts.filter fun h => !decide (h.worker = w) := by
    have hpass : (m.controller.remove w).hosts =
        (Pass.sweep (Icmp.Controller.removePred w) m.controller.hosts m.controller.world).1 :=
      congrArg Icmp.View.hosts Icmp.view_stopIfEmpty
    rw [hpass, Pass.sweep_eq (Icmp.Controller.removePred w) (p := fun h => decide (h.worker = w))
      (f := fun h u => (u.setBusy w false).record (.removed h.node w)) m.controller.world]
    intro h _ u
    unfold Icmp.Controller.removePred
    by_cases hw : h.worker = w <;> simp [hw]
  refine Bool.eq_false_iff.mpr fun hbusy => ?_
  obtain ⟨h, hh, hw⟩ := List.mem_map.mp ((hsound.flags.busy w).mp hbusy)
  have hh : h ∈ (m.controller.remove w).hosts := hh
  rw [hhosts, List.mem_filter] at hh
  simp [hw] at hh

theorem step_alive (hs : Sound m.controller) (hm : m.Alive) (ht : m.step i = some t) : t.Alive := by
  have stored : ∀ v b, (m.store v b).Alive := fun v b x hx => by
    change (Function.update m.agents v (some b) x).isSome
    by_cases hv : x = v
    · rw [hv, Function.update_self]
      rfl
    · rw [Function.update_of_ne hv]
      exact hm x hx
  cases i with
  | refresh v env =>
    obtain ⟨b, hb, ht⟩ := Option.bind_eq_some_iff.mp ht
    split_ifs at ht
    · obtain ⟨c, -, rfl⟩ := Option.map_eq_some_iff.mp ht
      exact stored v c
    · obtain ⟨d, hd, -⟩ := agent_eq_some.mp hb
      exact (call_alive hs hm (fun x env' he => by cases he; rw [hd]; rfl) ht).1
  | computeState v base ifaces =>
    obtain ⟨b, -, rfl⟩ := Option.map_eq_some_iff.mp ht
    exact stored v _
  | address v addr =>
    obtain ⟨b, -, ht⟩ := Option.bind_eq_some_iff.mp ht
    exact (call_alive hs hm (fun _ _ he => by cases he) ht).1
  | destroy v =>
    obtain ⟨b, -, ht⟩ := Option.bind_eq_some_iff.mp ht
    obtain ⟨u, hu, rfl⟩ := Option.map_eq_some_iff.mp ht
    have hremove : u.controller = m.controller.remove v := (Option.some.inj (call_eq_some hu).1).symm
    intro x hx
    have hxv : x ≠ v := fun he => by
      subst he
      change u.controller.world.busy x = true at hx
      rw [hremove, remove_busy hs x] at hx
      cases hx
    change (Function.update u.agents v none x).isSome
    rw [Function.update_of_ne hxv]
    exact (call_alive hs hm (fun _ _ he => by cases he) hu).1 x hx
  | onTimer | task | handleEvent => exact (call_alive hs hm (fun _ _ he => by cases he) ht).1

theorem step_defined (hs : Sound m.controller) (hm : m.Alive) (hi : m.Exists i) (ht : m.step i = none) :
    ∃ c ∈ i.call, m.controller.step c = none := by
  have hagent : ∀ {v : WorkerId}, (m.agents v).isSome → ∃ b, m.agent v = some b := fun h => by
    obtain ⟨b, hb⟩ := Option.isSome_iff_exists.mp h
    exact ⟨_, agent_eq_some.mpr ⟨b, hb, rfl⟩⟩
  cases i with
  | refresh v env =>
    obtain ⟨b, hb⟩ := hagent hi
    change m.refresh v env = none at ht
    rw [Monitor.refresh, hb, Option.bind_some] at ht
    split_ifs at ht with hidle
    · obtain ⟨-, c, hc, -⟩ := refresh_idle hidle false
      rw [hc] at ht
      cases ht
    · exact ⟨_, rfl, call_defined hs hm (fun x env' he => by cases he; exact hi) ht⟩
  | computeState v base ifaces =>
    obtain ⟨b, hb⟩ := hagent hi
    change (m.agent v).map _ = none at ht
    rw [hb] at ht
    cases ht
  | address v addr =>
    obtain ⟨b, hb⟩ := Option.isSome_iff_exists.mp hi
    change (m.agents v).bind _ = none at ht
    rw [hb, Option.bind_some] at ht
    exact ⟨_, rfl, call_defined hs hm (fun _ _ he => by cases he) ht⟩
  | destroy v =>
    obtain ⟨b, hb⟩ := Option.isSome_iff_exists.mp hi
    change (m.agents v).bind _ = none at ht
    rw [hb, Option.bind_some, Option.map_eq_none_iff] at ht
    exact ⟨_, rfl, call_defined hs hm (fun _ _ he => by cases he) ht⟩
  | onTimer | task | handleEvent => exact ⟨_, rfl, call_defined hs hm (fun _ _ he => by cases he) ht⟩

/-- All along every run, in which agents come to be destroyed at any time, a busy worker belongs to an agent that exists,
    and a call of such an agent, or one of the main loop, is undefined only where the controller itself is: no result
    ever reaches an agent that was destroyed. --/
theorem never_dangling (pid : Nat) (workers : WorkerId → Icmp.Worker) (agents : WorkerId → Option Agent) (is : List Input) :
    Along step (fun m i => m.Alive ∧ (m.Exists i → m.step i = none → ∃ c ∈ i.call, m.controller.step c = none))
      (init pid workers agents) is := by
  have inv : Always step (fun m => Sound m.controller ∧ m.Alive) (init pid workers agents) is :=
    always_of_step (fun _ _ _ hs ht => ⟨step_sound hs.1 ht, step_alive hs.1 hs.2 ht⟩)
      ⟨Icmp.sound_init pid workers, fun w hw => by cases hw⟩ is
  exact inv.along.mono fun m i hm => ⟨hm.2, step_defined hm.1 hm.2⟩

end UdjatNetwork.Ip
