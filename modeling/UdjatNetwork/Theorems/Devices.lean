import Mathlib.Data.List.DropRight
import UdjatNetwork.Nic.Device
import UdjatNetwork.Support.View
import UdjatNetwork.Theorems.LinkFlags

/-! # What agents show of their interfaces

An agent of a configuration shows the first state of its `<network-interface>` that holds of its interface. What the agent
takes for the state of its link depends on all messages since the link was last removed; and a state that no longer holds
is shown only until an update that was asked for. -/

namespace UdjatNetwork.Nic
open Machine Monitor NetLink

variable {m t : Monitor} {k : Nat} {a b : Agent} {d : Device} {node : InterfaceNode} {interfaces : List String}

/-- The agent of a node that is for one interface, with its states. -/
def deviceOf (interfaces : List String) (node : InterfaceNode) : Option Device :=
  match Interface.factory node interfaces with
  | some (.agent d) => some (d.setup node.states)
  | _ => none

/-! ### Setup -/

theorem setup_eq (d : Device) (nodes : List StateNode) :
    d.setup nodes = { d with
      states := d.states ++ nodes.filterMap fun node => (State.ofNode node).map (DeviceState.mk node) } := by
  induction nodes generalizing d with
  | nil => rw [List.filterMap_nil, List.append_nil]; rfl
  | cons node nodes ih =>
    have hnext : d.setup (node :: nodes) = ((d.stateFactory node).getD d).setup nodes := rfl
    rw [hnext, ih, List.filterMap_cons, Device.stateFactory]
    cases State.ofNode node with
    | none => rfl
    | some st =>
      rw [Option.map_some, Option.map_some, Option.getD_some, List.append_assoc]
      rfl

theorem factory_agent (h : Interface.factory node interfaces = some (.agent d)) : d = .ofNode node "" := by
  unfold Interface.factory at h
  split_ifs at h <;> simp only [Option.some.injEq, reduceCtorEq] at h
  exact (Interface.agent.inj h).symm

theorem deviceOf_eq_some (h : deviceOf interfaces node = some d) :
    d.agent = { name := node.deviceName } ∧
      d.states = node.states.filterMap fun node => (State.ofNode node).map (DeviceState.mk node) := by
  unfold deviceOf at h
  split at h
  · rename_i c hc
    obtain rfl := Option.some.inj h
    rw [setup_eq, factory_agent hc]
    exact ⟨rfl, List.nil_append _⟩
  · cases h

/-- The state that is shown is the first one of the document that holds. -/
theorem computeState_first (h : deviceOf interfaces node = some d) (a : Agent) :
    (d.computeState a).map DeviceState.node = node.states.find? fun st => (State.ofNode st).any (·.compare a) := by
  have hany : (fun st => Option.any (fun x : DeviceState => x.state.compare a) ((State.ofNode st).map (DeviceState.mk st))) =
      fun st => (State.ofNode st).any (·.compare a) := funext fun st => by cases State.ofNode st <;> rfl
  rw [Device.computeState, (deviceOf_eq_some h).2, List.find?_filterMap, hany]
  cases hfind : node.states.find? fun st => (State.ofNode st).any (·.compare a) with
  | none => rfl
  | some st =>
    have hst : (State.ofNode st).any (·.compare a) = true :=
      List.find?_some (p := fun st => (State.ofNode st).any (·.compare a)) hfind
    obtain ⟨x, hx, -⟩ := Option.any_eq_true _ _ |>.mp hst
    rw [Option.bind_some, hx]
    rfl

/-! ### Links -/

/-- The reports since the last removal. -/
def since (rs : List Report) : List Report := rs.rtakeWhile (·.added)

/-- The flags of the last removal, or else those at the beginning. -/
def flagsBefore (flags : BitVec 32) (rs : List Report) : BitVec 32 :=
  ((rs.rdropWhile (·.added)).map Report.flags).getLastD flags

/-- Whether the link is taken to be there: it was, and has not been removed; or a report since the last removal told of
    other flags than that one, or than the agent had at the beginning. -/
def live (netlink : Bool) (flags : BitVec 32) (rs : List Report) : Bool :=
  (netlink && rs.all (·.added)) || (since rs).any fun r => r.flags ≠ flagsBefore flags rs

theorem since_append_added {r : Report} (hr : r.added = true) (rs : List Report) :
    since (rs ++ [r]) = since rs ++ [r] ∧ ∀ flags, flagsBefore flags (rs ++ [r]) = flagsBefore flags rs := by
  refine ⟨List.rtakeWhile_concat_pos _ _ _ hr, fun flags => ?_⟩
  rw [flagsBefore, List.rdropWhile_concat_pos _ _ _ hr, flagsBefore]

theorem since_append_removed {r : Report} (hr : r.added = false) (rs : List Report) : since (rs ++ [r]) = [] :=
  List.rtakeWhile_concat_neg _ _ _ (by rw [hr]; exact Bool.false_ne_true)

/-- When all reports since a removal tell the same flags as it, these are the last ones. -/
theorem last_flags_of_since {flags : BitVec 32} {rs : List Report}
    (h : ∀ r ∈ since rs, r.flags = flagsBefore flags rs) : (rs.map Report.flags).getLastD flags = flagsBefore flags rs := by
  rcases List.eq_nil_or_concat rs with rfl | ⟨rs, r, rfl⟩
  · rfl
  · rw [List.concat_eq_append] at h ⊢
    have hlast : ((rs ++ [r]).map Report.flags).getLastD flags = r.flags := by simp
    rw [hlast]
    cases hr : r.added with
    | true => exact h r (by rw [(since_append_added hr rs).1]; simp)
    | false =>
      rw [flagsBefore, List.rdropWhile_concat_neg _ _ _ (by rw [hr]; exact Bool.false_ne_true)]
      exact hlast.symm

theorem reports_netlink (a : Agent) (rs : List Report) :
    (rs.foldl Agent.report a).netlink = live a.netlink a.flags rs := by
  induction rs using List.reverseRecOn with
  | nil => simp [live, since]
  | append_singleton rs r ih =>
    rw [List.foldl_append, List.foldl_cons, List.foldl_nil]
    change (r.added && (_ || decide (_ ≠ r.flags))) = _
    rw [ih, reports_flags]
    cases hr : r.added with
    | false => simp [live, since_append_removed hr, hr]
    | true =>
      obtain ⟨hsince, hbefore⟩ := since_append_added hr rs
      rw [Bool.true_and, live, live, hsince, hbefore, List.all_append, List.any_append]
      cases hany : (since rs).any fun r => r.flags ≠ flagsBefore a.flags rs with
      | true => simp
      | false =>
        have hsame : ∀ x ∈ since rs, x.flags = flagsBefore a.flags rs := fun x hx => by
          simpa using List.any_eq_false.mp hany x hx
        rw [last_flags_of_since hsame]
        simp [hr, eq_comm]

theorem reports_eq (a : Agent) (rs : List Report) :
    rs.foldl Agent.report a =
      { a with flags := (rs.map Report.flags).getLastD a.flags, netlink := live a.netlink a.flags rs } := by
  have hframe : rs.foldl Agent.report a = { a with
      flags := (rs.foldl Agent.report a).flags, netlink := (rs.foldl Agent.report a).netlink } := by
    induction rs generalizing a with
    | nil => rfl
    | cons r rs ih => exact ih (a.report r)
  rw [hframe, reports_flags, reports_netlink]

/-! ### Agents of a configuration -/

theorem step_missing {i : Input} (h : m.agents k = none) (ht : m.step i = some t) : t.agents k = none := by
  have hne : ∀ {object c}, m.agents object = some c → object ≠ k := fun hc he => by
    rw [he, h] at hc
    cases hc
  cases i with
  | start object ioctl index first second =>
    obtain ⟨c, hc, -⟩ := Option.bind_eq_some_iff.mp ht
    obtain ⟨netlink, hstart, -⟩ := start_cases hc ioctl index first second
    cases hstart.symm.trans ht
    exact (agents_store_of_ne (hne hc) m _).trans h
  | refresh object ioctl =>
    obtain ⟨c, hc, rfl⟩ := Option.map_eq_some_iff.mp ht
    exact (agents_store_of_ne (hne hc) m _).trans h
  | stop object =>
    obtain ⟨c, -, rfl⟩ := Option.map_eq_some_iff.mp ht
    exact h
  | destroy object =>
    obtain ⟨c, hc, rfl⟩ := Option.map_eq_some_iff.mp ht
    exact (Function.update_of_ne (Ne.symm (hne hc)) _ _).trans h
  | receive name recv =>
    cases recv with
    | error errno =>
      cases ht
      exact h
    | ok r =>
      obtain ⟨-, hdispatch⟩ := receive_eq_some ht
      rw [dispatch_eq_some hdispatch k, h, Option.bind_none]

/-- An agent that a step leaves to exist has taken its inputs. -/
theorem step_lives {i : Input} (ht : m.step i = some t) (hb : t.agents k = some b) :
    ∃ a, m.agents k = some a ∧ exec Agent.step a (inputs k m i) = some b := by
  cases ha : m.agents k with
  | none =>
    rw [step_missing ha ht] at hb
    cases hb
  | some a =>
    have hd : i ≠ .destroy k := by
      rintro rfl
      obtain ⟨c, -, rfl⟩ := Option.map_eq_some_iff.mp ht
      cases hb.symm.trans (Function.update_self _ _ _)
    obtain ⟨c, hc, hexec⟩ := step_inputs ha hd ht
    obtain rfl : c = b := Option.some.inj (hc.symm.trans hb)
    exact ⟨a, rfl, hexec⟩

theorem exec_name {js : List Agent.Input} (hb : exec Agent.step a js = some b) : b.name = a.name :=
  ((always_of_step (fun _ _ _ hc hd => (step_name hd).trans hc) rfl js).of_exec hb : (fun c : Agent => c.name = a.name) b)

/-- Agents keep the names that they were made with. -/
theorem names_kept (agents : Nat → Option Agent) (is : List Input) (hm : exec step (init agents) is = some m)
    (ha : m.agents k = some a) : ∃ c, agents k = some c ∧ a.name = c.name := by
  refine ((always_of_step (I := fun m => ∀ a, m.agents k = some a → ∃ c, agents k = some c ∧ a.name = c.name)
    (fun u i t hu ht b hb => ?_) (fun a ha => ⟨a, ha, rfl⟩) is).of_exec hm) a ha
  obtain ⟨a, ha, hexec⟩ := step_lives ht hb
  obtain ⟨c, hc, hname⟩ := hu a ha
  exact ⟨c, hc, (exec_name hexec).trans hname⟩

/-- In every state that a run reaches, datagrams of whole messages, long enough for the listeners of their type, leave the
    agent of a `<network-interface>`, when it has both of its listeners and knows its index, while the names of the
    indices stay, with the flags of the last message of its interface, or those that it had, and a link that is there if
    a new one was told with other flags since the last removal with other flags, or, without such a removal, the agent
    had it; and it shows the first state of the document that holds of them. --/
theorem links_shown (nodes : Nat → Option InterfaceNode) (interfaces : List String) (is : List Input)
    (hm : exec step (init fun k => ((nodes k).bind (deviceOf interfaces)).map Device.agent) is = some m) (k : Nat)
    (hk : m.Started k) (ha : m.agents k = some a) (table : Int → Option String)
    (htable : ∀ index, table index = some a.name ↔ index = a.index) (rs : List Received) (batches : List Batch)
    (hr : List.Forall₂ (fun r batch => r.Holds batch.bytes) rs batches)
    (hlong : ∀ batch ∈ batches, ∀ msg ∈ batch.messages, Long m.netlink msg) :
    ∃ t b node d, exec step m (rs.map fun r => .receive (fun _ => table) (.ok r)) = some t ∧ t.agents k = some b ∧
      (let reports := (batches.flatMap Batch.messages).filterMap (reportOf a.index)
       b = { a with flags := (reports.map Report.flags).getLastD a.flags, netlink := live a.netlink a.flags reports }) ∧
      nodes k = some node ∧ deviceOf interfaces node = some d ∧ b.name = node.deviceName ∧
      (d.computeState b).map DeviceState.node = node.states.find? fun st => (State.ofNode st).any (·.compare b) := by
  obtain ⟨t, ht, hb⟩ := exec_datagrams ((always_linked _ is).of_exec hm) hk ha htable hr hlong
  obtain ⟨c, hc, hname⟩ := names_kept _ is hm ha
  obtain ⟨d, hd, rfl⟩ := Option.map_eq_some_iff.mp hc
  obtain ⟨node, hnode, hd⟩ := Option.bind_eq_some_iff.mp hd
  refine ⟨t, _, node, d, ht, hb, reports_eq a _, hnode, hd, ?_, computeState_first hd _⟩
  rw [reports_eq]
  exact hname.trans (congrArg Agent.name (deviceOf_eq_some hd).1)

/-- The result at a new link of the interface, with one of another interface behind it. --/
theorem links_shown_up :
    let env : PushEnv := { socket := some 5, bind := true }
    let node : InterfaceNode := { deviceName := "eth0", states := [{ name := "up" }, { deviceState := some "found" }] }
    let nodes : Nat → Option InterfaceNode := fun k => if k = 0 then some node else none
    let table : Int → Option String := fun x => if x = 2 then some "eth0" else none
    let batch := newLinks [(2, 1), (3, 1)] (by decide)
    ∃ m a, exec step (init fun k => ((nodes k).bind (deviceOf [])).map Device.agent) [.start 0 (.flags 3) 2 env env] = some m ∧
      m.agents 0 = some a ∧
      ∃ t b node d, exec step m ([Received.ofBytes batch.bytes].map fun r => .receive (fun _ => table) (.ok r)) = some t ∧
        t.agents 0 = some b ∧
        (let reports := ([batch].flatMap Batch.messages).filterMap (reportOf a.index)
         b = { a with flags := (reports.map Report.flags).getLastD a.flags, netlink := live a.netlink a.flags reports }) ∧
        nodes 0 = some node ∧ deviceOf [] node = some d ∧ b.name = node.deviceName ∧
        (d.computeState b).map DeviceState.node = node.states.find? fun st => (State.ofNode st).any (·.compare b) := by
  intro env node nodes table batch
  have hfactory : Interface.factory node [] = some (.agent (.ofNode node "")) := by decide
  have hagents : (fun k => ((nodes k).bind (deviceOf [])).map Device.agent) =
      fun k => if k = 0 then some { name := "eth0" } else none := funext fun k => by
    by_cases hk : k = 0
    · rw [if_pos hk, show nodes k = some node from if_pos hk, Option.bind_some, deviceOf, hfactory]
      dsimp only
      rw [setup_eq]
      rfl
    · rw [if_neg hk, show nodes k = none from if_neg hk, Option.bind_none, Option.map_none]
  obtain ⟨m, hm, hlisteners, ha⟩ : ∃ m, exec step (init fun k => ((nodes k).bind (deviceOf [])).map Device.agent)
      [.start 0 (.flags 3) 2 env env] = some m ∧
      m.netlink.listeners = [listener 0 RTM_NEWLINK, listener 0 RTM_DELLINK] ∧
      m.agents 0 = some { name := "eth0", index := 2, exist := true, flags := 3 } := by
    rw [hagents]
    exact ⟨_, rfl, rfl, rfl⟩
  have hk : m.Started 0 := started_of_listeners hlisteners
  refine ⟨m, _, hm, ha, links_shown nodes [] _ hm 0 hk ha table (fun index => ?_) _ [batch] ?_ ?_⟩
  · by_cases hindex : index = 2 <;> simp [table, hindex]
  · exact .cons (Received.holds_ofBytes _) .nil
  · intro b hb msg hmsg
    rw [List.mem_singleton.mp hb] at hmsg
    exact newLinks_long _ _ _ msg hmsg

/-! ### Updates -/

/-- Whether an input asks for an update of the agent: a refresh that returns true, or a listener that pushes one. -/
def Agent.asks (a : Agent) : Agent.Input → Bool
  | .start ioctl _ | .refresh ioctl => (a.refresh ioctl).2.getD false
  | .newLink ifi name => (a.newLink ifi name).2
  | .delLink ifi => (a.delLink ifi).2

def Agent.asksAny (a : Agent) : List Agent.Input → Bool
  | [] => false
  | j :: js => a.asks j || (a.step j).any fun b => b.asksAny js

/-- Whether a step asks for an update of an agent. -/
def asks (k : Nat) (m : Monitor) (i : Input) : Bool := (m.agents k).any fun a => a.asksAny (inputs k m i)

/-- What an agent should show. -/
def view (devices : Nat → Option Device) (k : Nat) (m : Monitor) : Option DeviceState :=
  (m.agents k).bind fun a => (devices k).bind fun d => d.computeState a

/-- An agent as it was made, without listeners. -/
def Monitor.Fresh (k : Nat) (m : Monitor) : Prop :=
  (∃ name, m.agents k = some { name }) ∧ ∀ l ∈ m.netlink.listeners, l.object ≠ k

/-- What states read of an agent is the same. -/
def Agent.Same (a b : Agent) : Prop := b.flags = a.flags ∧ b.netlink = a.netlink ∧ b.exist = a.exist

theorem Agent.Same.computeState (h : a.Same b) (d : Device) : d.computeState b = d.computeState a := by
  obtain ⟨hflags, hnetlink, hexist⟩ := h
  refine congrArg (fun f => d.states.find? f) (funext fun st => ?_)
  cases st.state <;> simp only [State.compare, hflags, hnetlink, hexist]

theorem refresh_same {ioctl : Ioctl} (h : (a.refresh ioctl).2.getD false = false) : a.Same (a.refresh ioctl).1 := by
  cases ioctl with
  | noSocket => exact ⟨rfl, rfl, rfl⟩
  | error errno =>
    have h : (decide (a.flags ≠ 0) || decide (a.index ≠ -1) || a.exist) = false := h
    simp only [Bool.or_eq_false_iff, decide_eq_false_iff_not, not_not] at h
    exact ⟨h.1.1.symm, rfl, h.2.symm⟩
  | flags f =>
    have h : (decide (a.flags ≠ f.signExtend 32) || decide (a.index ≠ (f.toNat : Int)) || !a.exist) = false := h
    simp only [Bool.or_eq_false_iff, decide_eq_false_iff_not, not_not, Bool.not_eq_false'] at h
    exact ⟨h.1.1.symm, rfl, h.2.symm⟩

/-- An input that asks for no update changes nothing that states read. -/
theorem same_of_asks {j : Agent.Input} (h : a.asks j = false) (hb : a.step j = some b) : a.Same b := by
  cases j with
  | start ioctl index =>
    cases hb
    have hsame := refresh_same h
    unfold Agent.start
    split
    · rename_i c hc
      rwa [hc] at hsame
    · rename_i c changed hc
      rwa [hc] at hsame
  | refresh ioctl =>
    cases hb
    exact refresh_same h
  | newLink ifi name =>
    cases hb
    have h : (a.newLink ifi name).2 = false := h
    unfold Agent.newLink at h ⊢
    dsimp only at h ⊢
    split_ifs at h ⊢ <;> exact ⟨rfl, rfl, rfl⟩
  | delLink ifi =>
    cases hb
    have h : (a.delLink ifi).2 = false := h
    unfold Agent.delLink at h ⊢
    split_ifs at h ⊢ <;> exact ⟨rfl, rfl, rfl⟩

theorem same_of_asksAny {js : List Agent.Input} (h : a.asksAny js = false) (hb : exec Agent.step a js = some b) :
    a.Same b := by
  induction js generalizing a with
  | nil =>
    cases hb
    exact ⟨rfl, rfl, rfl⟩
  | cons j js ih =>
    obtain ⟨c, hc, hb⟩ := exec_cons_eq_some.mp hb
    obtain ⟨hj, hjs⟩ := Bool.or_eq_false_iff.mp h
    rw [hc, Option.any_some] at hjs
    obtain ⟨hflags, hnetlink, hexist⟩ := same_of_asks hj hc
    obtain ⟨hflags', hnetlink', hexist'⟩ := ih hjs hb
    exact ⟨hflags'.trans hflags, hnetlink'.trans hnetlink, hexist'.trans hexist⟩

theorem letters_listener {i : Input} {p : Nat × Agent.Input} (hp : p ∈ letters m i) :
    ∃ l ∈ m.netlink.listeners, l.object = p.1 := by
  cases i with
  | start | refresh | stop | destroy => cases hp
  | receive name recv =>
    cases recv with
    | error errno => cases hp
    | ok r =>
      obtain ⟨e, he, hp⟩ := List.mem_filterMap.mp hp
      cases e with
      | header | caught => cases hp
      | message l off len =>
        cases hp
        exact ⟨l, message_listener _ _ _ he, rfl⟩

/-- A new agent asks for an update with the first refresh that gets an answer. -/
theorem noSocket_of_asks {name : String} {ioctl : Ioctl}
    (h : ((({ name } : Agent).refresh ioctl).2.getD false) = false) : ioctl = .noSocket := by
  cases ioctl with
  | noSocket => rfl
  | error errno => cases h
  | flags f => simp [Agent.refresh] at h

theorem fresh_step {i : Input} (hm : m.Fresh k) (ht : m.step i = some t) (hb : t.agents k = some b)
    (h : asks k m i = false) : t.Fresh k := by
  obtain ⟨⟨name, ha⟩, hnone⟩ := hm
  have stored : ∀ {object : Nat} {c : Agent}, object ≠ k → (m.store object c).Fresh k := fun hk =>
    ⟨⟨name, (agents_store_of_ne hk m _).trans ha⟩, hnone⟩
  have unanswered : ∀ {j : Agent.Input}, inputs k m i = [j] → ({ name } : Agent).asks j = false := fun {j} hj => by
    rw [asks, ha, Option.any_some, hj] at h
    exact (Bool.or_eq_false_iff.mp h).1
  cases i with
  | start object ioctl index first second =>
    obtain ⟨c, hc, hstart⟩ := Option.bind_eq_some_iff.mp ht
    by_cases hk : object = k
    · subst hk
      obtain rfl : c = { name } := Option.some.inj (hc.symm.trans ha)
      obtain rfl := noSocket_of_asks (unanswered (j := .start ioctl index) (by simp [inputs, asked, letters, inbox]))
      cases hstart
      exact ⟨⟨name, agents_store_self m object _⟩, hnone⟩
    · obtain ⟨netlink, hstart, hnew⟩ := start_cases hc ioctl index first second
      cases hstart.symm.trans ht
      refine ⟨(stored hk).1, fun l hl => ?_⟩
      rcases hnew l hl with hl | ⟨hobject, -⟩
      · exact hnone l hl
      · exact fun he => hk (hobject.symm.trans he)
  | refresh object ioctl =>
    obtain ⟨c, hc, rfl⟩ := Option.map_eq_some_iff.mp ht
    by_cases hk : object = k
    · subst hk
      obtain rfl : c = { name } := Option.some.inj (hc.symm.trans ha)
      obtain rfl := noSocket_of_asks (unanswered (j := .refresh ioctl) (by simp [inputs, asked, letters, inbox]))
      exact ⟨⟨name, agents_store_self m object _⟩, hnone⟩
    · exact stored hk
  | stop object =>
    obtain ⟨c, -, rfl⟩ := Option.map_eq_some_iff.mp ht
    exact ⟨⟨name, ha⟩, fun l hl => hnone l (mem_remove hl).1⟩
  | destroy object =>
    obtain ⟨c, -, rfl⟩ := Option.map_eq_some_iff.mp ht
    have hk : k ≠ object := by
      rintro rfl
      cases hb.symm.trans (Function.update_self _ _ _)
    exact ⟨⟨name, (Function.update_of_ne hk _ _).trans ha⟩, fun l hl => hnone l (mem_remove hl).1⟩
  | receive x recv =>
    cases recv with
    | error errno =>
      cases ht
      exact ⟨⟨name, ha⟩, hnone⟩
    | ok r =>
      obtain ⟨hnetlink, hdispatch⟩ := receive_eq_some ht
      have hnil : inbox k (letters m (.receive x (.ok r))) = [] := by
        refine List.map_eq_nil_iff.mpr (List.filter_eq_nil_iff.mpr fun p hp => ?_)
        obtain ⟨l, hl, hobject⟩ := letters_listener hp
        rw [← hobject]
        simpa using hnone l hl
      refine ⟨⟨name, ?_⟩, fun l hl => hnone l (hnetlink ▸ hl)⟩
      rw [dispatch_eq_some hdispatch k, ha, hnil]
      rfl

theorem asking (devices : Nat → Option Device) (k : Nat) :
    Asking step (view devices k) (asks k) (fun m => (m.agents k).isSome) (Monitor.Fresh k) fun _ _ => True where
  lives ht hb := by
    obtain ⟨b, hb⟩ := Option.isSome_iff_exists.mp hb
    obtain ⟨a, ha, -⟩ := step_lives ht hb
    exact Option.isSome_iff_exists.mpr ⟨a, ha⟩
  keeps ht hb _ h := by
    obtain ⟨b, hb⟩ := Option.isSome_iff_exists.mp hb
    obtain ⟨a, ha, hexec⟩ := step_lives ht hb
    rw [asks, ha, Option.any_some] at h
    rw [view, view, ha, hb, Option.bind_some, Option.bind_some]
    exact congrArg _ (funext (same_of_asksAny h hexec).computeState)
  fresh ht hb _ h hm := by
    obtain ⟨b, hb⟩ := Option.isSome_iff_exists.mp hb
    exact fresh_step hm ht hb h

/-- In every run of the agents of a configuration, whatever is received and however late the updates come that were asked
    for, what an agent was last seen to show is what it should show now, unless an update of it is due; or it has not been
    updated at all, and is as it was made. --/
theorem shown_current (nodes : Nat → Option InterfaceNode) (interfaces : List String) (k : Nat) (is : List (Turn Input)) :
    let devices : Nat → Option Device := fun k => (nodes k).bind (deviceOf interfaces)
    Always (turn step (view devices k) (asks k))
      (fun s => (s.state.agents k).isSome → s.due = true ∨ s.shown = some (view devices k s.state) ∨
        s.shown = none ∧ s.state.Fresh k)
      (.start (init fun k => (devices k).map Device.agent)) is := by
  intro devices
  refine (asking devices k).always (fun hk => ?_)
    (along_of_forall (C := fun i : Turn Input => ∀ j, i = .call j → True) fun _ _ _ _ => trivial)
  obtain ⟨a, ha⟩ := Option.isSome_iff_exists.mp hk
  obtain ⟨d, hd, rfl⟩ := Option.map_eq_some_iff.mp ha
  obtain ⟨node, -, hd⟩ := Option.bind_eq_some_iff.mp hd
  exact ⟨⟨node.deviceName, ha.trans (congrArg some (deviceOf_eq_some hd).1)⟩, fun l hl => by cases hl⟩

end UdjatNetwork.Nic
