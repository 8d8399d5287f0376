import UdjatNetwork.Support.View
import UdjatNetwork.Theorems.HostClasses

/-! # What hosts show

The state of a host depends on its address, its ICMP state and, for a DNS agent, its DNS state. A result asks for an update
when it sets another ICMP state; a refresh asks for one when it returns true. Where a refresh finds something new and does
not return true, the host goes on to show what it did before. -/

namespace UdjatNetwork.Ip
open Machine Hosts
open Icmp (WorkerId Event)

variable {m t : Hosts} {w : WorkerId} {i : Hosts.Input} {h u : Host} {a b c : Agent} {base : Level}
  {ifaces : Option (List Interface)}

namespace Host

def dnsState : Host → Option Dns.State
  | .dns d => d.dnsState
  | _ => none

/-- What `refresh` returns, when it returns; `start` tells whether `ICMP::Worker::start` gets through. -/
def returns (h : Host) (env : RefreshEnv) (start : Bool) : Bool :=
  match h with
  | .ip _ => false
  | .gateway g =>
    match g.refresh env.detect start with
    | (.ok _, changed) => changed
    | _ => false
  | .dns d =>
    match d.refresh { env.dns with start } with
    | (.ok _, changed) => changed
    | _ => false

/-- A refresh finds what the host had. -/
def Same (h u : Host) : Prop := u.toAgent.address = h.toAgent.address ∧ u.dnsState = h.dnsState

/-- The refresh of a gateway whose route changes gets its check started; that of a DNS agent returns true, or finds what the
    agent had. -/
def Tells (h : Host) (env : RefreshEnv) (start : Bool) : Prop :=
  match h with
  | .ip _ => True
  | .gateway g => (g.detect env.detect).2 = true → ∃ u, (g.refresh env.detect start).1 = .ok u
  | .dns _ => h.returns env start = true ∨ ∀ u goes, h.locate env = some (u, goes) → h.Same u

end Host

/-- What a host should show, on a machine with these interfaces. -/
def Hosts.view (base : Level) (ifaces : Option (List Interface)) (w : WorkerId) (m : Hosts) :
    Option (Computed ⊕ Dns.State) :=
  (m.host w).bind fun h => (h.computeState base ifaces).2

/-- The updates that a host has had. -/
def Hosts.updates (w : WorkerId) (m : Hosts) : Nat := ((m.host w).map fun h => h.toAgent.updates).getD 0

/-- Whether a step asks for an update of a host: its `set` has called for one, or its `refresh` returns true. -/
def Hosts.asks (w : WorkerId) (m : Hosts) (i : Input) : Bool :=
  (m.step i).any (fun t => t.updates w ≠ m.updates w) ||
    match i with
    | .refresh v env => v = w && (m.host w).any fun h => h.returns env (m.monitor.starts w env.insert)
    | _ => false

/-- Nobody else sets the address of a host, its refreshes tell what they find, and the interfaces stay. -/
def Hosts.Told (ifaces : Option (List Interface)) (w : WorkerId) (m : Hosts) : Input → Prop
  | .address v _ => v ≠ w
  | .computeState v _ found => v = w → found = ifaces
  | .refresh v env => v = w → ∀ h, m.host w = some h → h.Tells env (m.monitor.starts w env.insert)
  | _ => True

/-! ### Subnet states -/

theorem compareInet_twice (st : State) (ifaces : Option (List Interface)) (addr : BitVec 32) :
    (st.compareInet ifaces addr).1.compareInet ifaces addr = st.compareInet ifaces addr := by
  unfold State.compareInet
  rcases hkind : st.kind with _ | revert
  · simp only [hkind]
  · cases ifaces with
    | none => simp only [hkind]
    | some ifaces =>
      cases hfind : (SubNet.ofInterfaces ifaces).find? (·.contains addr) with
      | none => simp only [hkind, hfind]
      | some subnet => simp only [hfind]

theorem compare_twice (st : State) (ifaces : Option (List Interface)) (addr : Address) :
    (st.compare ifaces addr).1.compare ifaces addr = st.compare ifaces addr := by
  cases addr with
  | inet addr => exact compareInet_twice st ifaces addr
  | empty | inet6 | other => rfl

/-- Comparing once more with the same interfaces changes nothing. -/
theorem findSubnet_twice (ifaces : Option (List Interface)) (addr : Address) (sts : List State) :
    Agent.findSubnet ifaces addr (Agent.findSubnet ifaces addr sts).1 = Agent.findSubnet ifaces addr sts := by
  induction sts with
  | nil => rfl
  | cons st sts ih =>
    have htwice := compare_twice st ifaces addr
    rw [Agent.findSubnet]
    rcases hcompare : st.compare ifaces addr with ⟨st', _ | _ | _⟩ <;> rw [hcompare] at htwice <;> dsimp only <;>
      rw [Agent.findSubnet, htwice]
    dsimp only
    rw [ih]

theorem computeState_snd (a : Agent) (base : Level) (ifaces : Option (List Interface)) :
    (a.computeState base ifaces).2 = (Agent.findSubnet ifaces a.address a.ipStates).2.map fun ipState =>
      Computed.max (Computed.max (.base base) (ipState.map .ip)) (a.icmpState.map .icmp) := by
  unfold Agent.computeState
  rcases Agent.findSubnet ifaces a.address a.ipStates with ⟨sts, _ | ipState⟩ <;> rfl

theorem computeState_fst (a : Agent) (base : Level) (ifaces : Option (List Interface)) :
    (a.computeState base ifaces).1.address = a.address ∧ (a.computeState base ifaces).1.running = a.running ∧
      (a.computeState base ifaces).1.icmpState = a.icmpState ∧
      (a.computeState base ifaces).1.ipStates = (Agent.findSubnet ifaces a.address a.ipStates).1 := by
  unfold Agent.computeState
  rcases Agent.findSubnet ifaces a.address a.ipStates with ⟨sts, _ | ipState⟩ <;> exact ⟨rfl, rfl, rfl, rfl⟩

theorem computeState_twice (a : Agent) (base base' : Level) (ifaces : Option (List Interface)) :
    ((a.computeState base' ifaces).1.computeState base ifaces).2 = (a.computeState base ifaces).2 := by
  obtain ⟨haddress, -, hicmp, hstates⟩ := computeState_fst a base' ifaces
  rw [computeState_snd, computeState_snd, haddress, hicmp, hstates, findSubnet_twice]

/-- What a host shows is what its IP part shows, or its DNS state where that has a higher level. -/
theorem host_computeState (h : Host) (base : Level) (ifaces : Option (List Interface)) :
    (h.computeState base ifaces).2 = (h.toAgent.computeState base ifaces).2.map fun state =>
      match h.dnsState with
      | some st => if st.level.value > state.level.value then .inr st else .inl state
      | none => .inl state := by
  cases h with
  | ip | gateway => rfl
  | dns d =>
    change (d.computeState base ifaces).2 = (d.toAgent.computeState base ifaces).2.map _
    unfold Dns.Agent.computeState
    rcases d.toAgent.computeState base ifaces with ⟨a, _ | state⟩
    · rfl
    · change _ = some (match d.dnsState with | some st => _ | none => _)
      cases d.dnsState <;> rfl

theorem dnsState_withAgent (h : Host) (a : Agent) : (h.withAgent a).dnsState = h.dnsState := by cases h <;> rfl

/-! ### Agents -/

/-- Of what its state depends on, an agent keeps all but the ICMP state, which comes with an update. -/
structure Agent.Kept (a b : Agent) : Prop where
  address : b.address = a.address
  ipStates : b.ipStates = a.ipStates
  updates : a.updates ≤ b.updates
  icmpState : b.updates = a.updates → b.icmpState = a.icmpState

namespace Agent.Kept

theorem refl (a : Agent) : a.Kept a := ⟨rfl, rfl, le_rfl, fun _ => rfl⟩

theorem trans (h : a.Kept b) (h' : b.Kept c) : a.Kept c where
  address := h'.address.trans h.address
  ipStates := h'.ipStates.trans h.ipStates
  updates := h.updates.trans h'.updates
  icmpState he := by
    have hb : b.updates = a.updates := le_antisymm (h'.updates.trans he.le) h.updates
    exact (h'.icmpState (he.trans hb.symm)).trans (h.icmpState hb)

theorem set (a : Agent) (response : Icmp.Response) (source : Address) : a.Kept (a.set response source) := by
  rw [set_eq]
  split_ifs
  · exact refl a
  · exact ⟨rfl, rfl, Nat.le_succ _, fun he => absurd he (Nat.succ_ne_self _)⟩

theorem foldl_hear (w : WorkerId) (a : Agent) (es : List Event) : a.Kept (es.foldl (Agent.hear w) a) := by
  induction es generalizing a with
  | nil => exact refl a
  | cons e es ih =>
    have he : a.Kept (Agent.hear w a e) := by
      cases e with
      | set n v response source =>
        rw [Agent.hear]
        split_ifs
        · exact set a response source
        · exact refl a
      | inserted | removed => exact refl a
    exact he.trans (ih _)

theorem refresh {a b : Agent} {start : Bool} (hb : (a.refresh start).state? = some b) : a.Kept b := by
  obtain ⟨c, hc, rfl | ⟨-, rfl⟩ | ⟨-, rfl⟩⟩ := refresh_cases a start <;> obtain rfl := Option.some.inj (hc.symm.trans hb)
  · exact refl _
  · have hfirst : a.Kept { a with ipState := none } := ⟨rfl, rfl, le_rfl, fun _ => rfl⟩
    exact hfirst.trans (set _ _ _)
  · exact ⟨rfl, rfl, le_rfl, fun _ => rfl⟩

end Agent.Kept

/-! ### Steps of the IP parts -/

variable {n n' : Monitor}

theorem call_kept {x : Icmp.Controller.Input} (hx : ∀ addr, x ≠ .address w addr) (ht : n.call x = some n')
    (hb : n'.agent w = some b) : ∃ a, n.agent w = some a ∧ a.Kept b := by
  obtain ⟨hstep, hagents⟩ := call_eq_some ht
  obtain ⟨c, hc, rfl⟩ := agent_eq_some.mp hb
  rw [hagents] at hc
  obtain ⟨a, ha, rfl⟩ := Option.map_eq_some_iff.mp hc
  have haddress : (n'.controller.world.workers w).addr = (n.controller.world.workers w).addr := by
    cases x with
    | address v addr =>
      have hv : w ≠ v := fun he => hx addr (he ▸ rfl)
      have hworld : n'.controller.world = n.controller.world.setAddr v addr :=
        (congrArg Icmp.Controller.world (Option.some.inj hstep)).symm
      rw [hworld, Icmp.World.setAddr]
      exact congrArg Icmp.Worker.addr (if_neg hv)
    | insert | remove | onTimer | task | handleEvent =>
      exact (Icmp.step_extends (fun _ _ he => by cases he) hstep).addr w
  obtain ⟨-, hstates, hupdates, hicmp⟩ := Agent.Kept.foldl_hear w a (Monitor.news n.controller n'.controller)
  exact ⟨_, agent_eq_some.mpr ⟨a, ha, rfl⟩, haddress, hstates, hupdates, hicmp⟩

theorem step_kept {j : Monitor.Input} (haddr : ∀ addr, j ≠ .address w addr)
    (hcompute : ∀ base ifaces, j ≠ .computeState w base ifaces) (ht : n.step j = some n') (hb : n'.agent w = some b) :
    ∃ a, n.agent w = some a ∧ a.Kept b := by
  have other : ∀ {v : WorkerId} {c : Agent}, v ≠ w → n' = n.store v c → ∃ a, n.agent w = some a ∧ a.Kept b := by
    rintro v c hv rfl
    exact ⟨b, (agent_store_of_ne hv c).symm.trans hb, .refl b⟩
  cases j with
  | refresh v env =>
    obtain ⟨a, ha, ht⟩ := Option.bind_eq_some_iff.mp ht
    split_ifs at ht with hidle
    · obtain ⟨c, hc, rfl⟩ := Option.map_eq_some_iff.mp ht
      by_cases hv : v = w
      · subst hv
        obtain ⟨-, d, hd, haddress, hrunning⟩ := refresh_idle hidle false
        obtain rfl : d = c := Option.some.inj (hd.symm.trans hc)
        obtain rfl : d = b := Option.some.inj ((agent_store_self ha haddress hrunning).symm.trans hb)
        exact ⟨a, ha, .refresh hd⟩
      · exact other hv rfl
    · exact call_kept (fun _ he => by cases he) ht hb
  | computeState v base ifaces =>
    obtain ⟨c, -, rfl⟩ := Option.map_eq_some_iff.mp ht
    exact other (fun he => hcompute base ifaces (he ▸ rfl)) rfl
  | address v addr =>
    obtain ⟨c, -, ht⟩ := Option.bind_eq_some_iff.mp ht
    exact call_kept (fun _ he => haddr addr (by cases he; rfl)) ht hb
  | destroy v =>
    obtain ⟨c, -, ht⟩ := Option.bind_eq_some_iff.mp ht
    obtain ⟨u, hu, rfl⟩ := Option.map_eq_some_iff.mp ht
    refine call_kept (fun _ he => by cases he) hu ?_
    obtain ⟨d, hd, rfl⟩ := agent_eq_some.mp hb
    have hv : w ≠ v := fun he => by
      rw [he] at hd
      cases (Function.update_self v none u.agents).symm.trans hd
    exact agent_eq_some.mpr ⟨d, (Function.update_of_ne hv _ _).symm.trans hd, rfl⟩
  | onTimer | task | handleEvent => exact call_kept (fun _ he => by cases he) ht hb

theorem exec_kept {js : List Monitor.Input} (haddr : ∀ addr, .address w addr ∉ js)
    (hcompute : ∀ base ifaces, .computeState w base ifaces ∉ js) (ht : exec Monitor.step n js = some n')
    (hb : n'.agent w = some b) : ∃ a, n.agent w = some a ∧ a.Kept b := by
  induction js generalizing n with
  | nil =>
    cases ht
    exact ⟨b, hb, .refl b⟩
  | cons j js ih =>
    obtain ⟨u, hu, ht⟩ := exec_cons_eq_some.mp ht
    obtain ⟨c, hc, hkept⟩ := ih (fun addr hmem => haddr addr (List.mem_cons_of_mem j hmem))
      (fun base ifaces hmem => hcompute base ifaces (List.mem_cons_of_mem j hmem)) ht
    obtain ⟨a, ha, hfirst⟩ := step_kept (fun addr he => haddr addr (he ▸ List.mem_cons_self))
      (fun base ifaces he => hcompute base ifaces (he ▸ List.mem_cons_self)) hu hc
    exact ⟨a, ha, hfirst.trans hkept⟩

/-- Setting an address does nothing else. -/
theorem address_agent {addr : Address} (ht : n.step (.address w addr) = some n') (hb : n'.agent w = some b) :
    ∃ a, n.agent w = some a ∧ b = { a with address := addr } := by
  obtain ⟨c, -, ht⟩ := Option.bind_eq_some_iff.mp ht
  obtain ⟨hstep, hagents⟩ := call_eq_some ht
  obtain ⟨d, hd, rfl⟩ := agent_eq_some.mp hb
  have hworld : n'.controller.world = n.controller.world.setAddr w addr :=
    (congrArg Icmp.Controller.world (Option.some.inj hstep)).symm
  have hnews : Monitor.news n.controller n'.controller = [] := by
    rw [Monitor.news, hworld, Icmp.World.log_setAddr, List.drop_length]
  rw [hagents, hnews] at hd
  obtain ⟨a, ha, rfl⟩ := Option.map_eq_some_iff.mp hd
  refine ⟨_, agent_eq_some.mpr ⟨a, ha, rfl⟩, ?_⟩
  have haddress : (n'.controller.world.workers w).addr = addr := by
    rw [hworld, Icmp.World.setAddr]
    exact congrArg Icmp.Worker.addr (if_pos rfl)
  rw [haddress, hworld, Icmp.World.busy_setAddr]
  rfl

/-! ### Refreshes -/

theorem detect_unchanged {g c : Gateway} {env : DetectEnv} (hc : g.detect env = (.ok c, false)) :
    c.address = g.address := by
  unfold Gateway.detect at hc
  split_ifs at hc
  · cases hc
  · split at hc
    · cases hc
    · split at hc
      · cases hc
      · split_ifs at hc <;> cases hc
        rfl

/-- A refresh that tells what it finds returns true, or finds what the host had. -/
theorem found_same {env : Host.RefreshEnv} {start goes : Bool} (hh : h.Tells env start)
    (hu : h.locate env = some (u, goes)) : h.returns env start = true ∨ h.Same u := by
  cases h with
  | ip a =>
    cases hu
    exact Or.inr ⟨rfl, rfl⟩
  | gateway g =>
    rw [Host.locate] at hu
    obtain ⟨c, hc, hsame⟩ | ⟨c, changed, hc, -⟩ := detect_toAgent g env.detect <;> rw [hc] at hu <;> cases hu
    · exact Or.inr ⟨congrArg Agent.address hsame, rfl⟩
    · cases changed with
      | true =>
        have hrefresh : ∀ start, g.refresh env.detect start = (c.refreshIp start, true) := fun start => by
          rw [Gateway.refresh, hc]
        obtain ⟨v, hv⟩ := hh (by rw [hc])
        rw [hrefresh] at hv
        refine Or.inl ?_
        rw [Host.returns, hrefresh, show c.refreshIp start = .ok v from hv]
      | false => exact Or.inr ⟨detect_unchanged hc, rfl⟩
  | dns d => exact hh.imp_right fun hfound => hfound u goes hu

/-! ### Steps -/

theorem dnsState_of_step (hi : ∀ env, i ≠ .refresh w env) (ht : m.step i = some t) (hh : m.host w = some h)
    (hu : t.host w = some u) : u.dnsState = h.dnsState := by
  obtain ⟨g, hg, hown⟩ := own_of_host hh
  have hd : i ≠ .destroy w := by
    rintro rfl
    obtain ⟨n, -, ht⟩ := Option.bind_eq_some_iff.mp ht
    obtain ⟨c, -, rfl⟩ := Option.map_eq_some_iff.mp ht
    obtain ⟨d, hd, -⟩ := host_eq_some.mp hu
    cases (Function.update_self w none c.hosts).symm.trans hd
  obtain ⟨x, hx⟩ := step_own hi hd ht hg
  obtain ⟨v, hv, rfl⟩ := host_eq_some.mp hu
  obtain rfl := Option.some.inj (hv.symm.trans hx)
  rw [dnsState_withAgent, dnsState_withAgent, ← dnsState_withAgent h h.toAgent, hown, dnsState_withAgent]

/-- A step that a host is left to exist by, but for a refresh of it, a comparison or a change of its address. -/
theorem step_host_kept (hi : ∀ env, i ≠ .refresh w env) (hcompute : ∀ base ifaces, i ≠ .computeState w base ifaces)
    (haddr : ∀ addr, i ≠ .address w addr) (ht : m.step i = some t) (hu : t.host w = some u) :
    ∃ h, m.host w = some h ∧ h.toAgent.Kept u.toAgent ∧ u.dnsState = h.dnsState := by
  have hb : t.monitor.agent w = some u.toAgent := by rw [monitor_agent, hu, Option.map_some]
  have hinputs : (∀ addr, .address w addr ∉ m.inputs i) ∧ ∀ base ifaces, .computeState w base ifaces ∉ m.inputs i := by
    cases i with
    | refresh v env =>
      have hv : w ≠ v := fun he => hi env (he ▸ rfl)
      unfold Hosts.inputs
      dsimp only
      split <;> simp [hv]
    | computeState v base ifaces =>
      have hv : w ≠ v := fun he => hcompute base ifaces (he ▸ rfl)
      simp [Hosts.inputs, hv]
    | address v addr =>
      have hv : w ≠ v := fun he => haddr addr (he ▸ rfl)
      simp [Hosts.inputs, hv]
    | destroy | onTimer | task | handleEvent => simp [Hosts.inputs]
  obtain ⟨a, ha, hkept⟩ := exec_kept hinputs.1 hinputs.2 (step_monitor ht) hb
  rw [monitor_agent] at ha
  obtain ⟨h, hh, rfl⟩ := Option.map_eq_some_iff.mp ha
  refine ⟨h, hh, hkept, ?_⟩
  exact dnsState_of_step hi ht hh hu

/-- A refresh sets the address that it finds, and keeps the rest. -/
theorem refresh_host_kept {env : Host.RefreshEnv} (ht : m.refresh w env = some t) (hu : t.host w = some u) :
    ∃ h found goes, m.host w = some h ∧ h.locate env = some (found, goes) ∧
      ({ h.toAgent with address := found.toAgent.address } : Agent).Kept u.toAgent ∧ u.dnsState = found.dnsState := by
  obtain ⟨h, hh, ht⟩ := Option.bind_eq_some_iff.mp ht
  obtain ⟨⟨found, goes⟩, hfound, ht⟩ := Option.bind_eq_some_iff.mp ht
  obtain ⟨n, hn, ht⟩ := Option.bind_eq_some_iff.mp ht
  have hplaced : m.monitor.step (.address w found.toAgent.address) = some n.monitor := by
    rw [← monitor_place, hn, Option.map_some]
  have hb : t.monitor.agent w = some u.toAgent := by rw [monitor_agent, hu, Option.map_some]
  obtain ⟨g, hg, -⟩ := own_of_host hh
  obtain ⟨x, hx⟩ := place_own hn hg
  rw [if_pos rfl] at hx
  obtain ⟨a, ha, hkept, y, hy⟩ : ∃ a, n.monitor.agent w = some a ∧ a.Kept u.toAgent ∧
      ∃ y, t.hosts w = some (found.withAgent y) := by
    cases goes with
    | false =>
      cases ht
      exact ⟨_, hb, .refl _, x, hx⟩
    | true =>
      have ht : n.refreshIp w env.insert = some t := ht
      have hstep : n.monitor.step (.refresh w env.insert) = some t.monitor := by
        rw [← monitor_refreshIp, ht, Option.map_some]
      obtain ⟨a, ha, hkept⟩ := step_kept (fun _ he => by cases he) (fun _ _ he => by cases he) hstep hb
      obtain ⟨y, hy⟩ := refreshIp_own ht hx
      exact ⟨a, ha, hkept, y, by rw [hy, Host.withAgent_withAgent]⟩
  obtain ⟨c, hc, rfl⟩ := address_agent hplaced ha
  rw [monitor_agent, hh, Option.map_some] at hc
  obtain rfl := Option.some.inj hc
  refine ⟨h, found, goes, hh, hfound, hkept, ?_⟩
  obtain ⟨v, hv, rfl⟩ := host_eq_some.mp hu
  obtain rfl := Option.some.inj (hv.symm.trans hy)
  rw [dnsState_withAgent, dnsState_withAgent]

/-- A comparison leaves the host with the subnet states that it has compared. -/
theorem compute_host_kept {base : Level} (ht : m.step (.computeState w base ifaces) = some t) (hu : t.host w = some u) :
    ∃ h, m.host w = some h ∧ u.toAgent = (h.toAgent.computeState base ifaces).1 ∧ u.dnsState = h.dnsState := by
  obtain ⟨h, hh, -⟩ := Option.map_eq_some_iff.mp ht
  refine ⟨h, hh, ?_, dnsState_of_step (fun _ he => by cases he) ht hh hu⟩
  have ha : m.monitor.agent w = some h.toAgent := by rw [monitor_agent, hh, Option.map_some]
  have hb : t.monitor.agent w = some u.toAgent := by rw [monitor_agent, hu, Option.map_some]
  have hstep : m.monitor.step (.computeState w base ifaces) = some t.monitor := by
    rw [← monitor_computeState, ht, Option.map_some]
  rw [Monitor.step, ha, Option.map_some] at hstep
  obtain ⟨haddress, hrunning, -⟩ := computeState_fst h.toAgent base ifaces
  rw [← Option.some.inj hstep, agent_store_self ha haddress hrunning] at hb
  exact (Option.some.inj hb).symm

/-- What a step that does not ask for an update leaves of what the host should show: all of it. -/
theorem view_same (htold : m.Told ifaces w i) (hasks : m.asks w i = false) (ht : m.step i = some t)
    (hlives : (t.host w).isSome) : t.view base ifaces w = m.view base ifaces w := by
  obtain ⟨u, hu⟩ := Option.isSome_iff_exists.mp hlives
  obtain ⟨hupdates, hreturns⟩ := Bool.or_eq_false_iff.mp hasks
  rw [ht, Option.any_some, decide_eq_false_iff_not, not_not] at hupdates
  have same : ∀ {h : Host}, m.host w = some h → h.toAgent.Kept u.toAgent → u.dnsState = h.dnsState →
      t.view base ifaces w = m.view base ifaces w := fun {h} hh hkept hdns => by
    have hicmp : u.toAgent.icmpState = h.toAgent.icmpState := hkept.icmpState (by
      rw [Hosts.updates, Hosts.updates, hh, hu] at hupdates
      exact hupdates)
    rw [Hosts.view, Hosts.view, hh, hu, Option.bind_some, Option.bind_some, host_computeState, host_computeState,
      computeState_snd, computeState_snd, hkept.address, hkept.ipStates, hicmp, hdns]
  by_cases hrefresh : ∃ env, i = .refresh w env
  · obtain ⟨env, rfl⟩ := hrefresh
    obtain ⟨h, found, goes, hh, hfound, hkept, hdns⟩ := refresh_host_kept ht hu
    have hfalse : h.returns env (m.monitor.starts w env.insert) = false := by
      rw [hh] at hreturns
      simpa using hreturns
    obtain ⟨haddress, hsame⟩ := (found_same (htold rfl h hh) hfound).resolve_left (by rw [hfalse]; exact Bool.false_ne_true)
    rw [haddress] at hkept
    exact same hh hkept (hdns.trans hsame)
  by_cases hcompute : ∃ base found, i = .computeState w base found
  · obtain ⟨base', found, rfl⟩ := hcompute
    obtain rfl := htold rfl
    obtain ⟨h, hh, hagent, hdns⟩ := compute_host_kept ht hu
    rw [Hosts.view, Hosts.view, hh, hu, Option.bind_some, Option.bind_some, host_computeState, host_computeState, hagent,
      computeState_twice, hdns]
  · obtain ⟨h, hh, hkept, hdns⟩ := step_host_kept (fun env he => hrefresh ⟨env, he⟩)
      (fun base found he => hcompute ⟨base, found, he⟩) (fun addr he => by rw [he] at htold; exact htold rfl) ht hu
    exact same hh hkept hdns

theorem hosts_lives (ht : m.step i = some t) (hlives : (t.host w).isSome) : (m.host w).isSome := by
  obtain ⟨u, hu⟩ := Option.isSome_iff_exists.mp hlives
  by_cases hrefresh : ∃ env, i = .refresh w env
  · obtain ⟨env, rfl⟩ := hrefresh
    obtain ⟨h, -, -, hh, -⟩ := refresh_host_kept ht hu
    exact Option.isSome_iff_exists.mpr ⟨h, hh⟩
  by_cases hcompute : ∃ base found, i = .computeState w base found
  · obtain ⟨base, found, rfl⟩ := hcompute
    obtain ⟨h, hh, -⟩ := compute_host_kept ht hu
    exact Option.isSome_iff_exists.mpr ⟨h, hh⟩
  by_cases haddr : ∃ addr, i = .address w addr
  · obtain ⟨addr, rfl⟩ := haddr
    have hstep : m.monitor.step (.address w addr) = some t.monitor := by rw [← monitor_address, ht, Option.map_some]
    have hb : t.monitor.agent w = some u.toAgent := by rw [monitor_agent, hu, Option.map_some]
    obtain ⟨a, ha, -⟩ := address_agent hstep hb
    rw [monitor_agent] at ha
    obtain ⟨h, hh, -⟩ := Option.map_eq_some_iff.mp ha
    exact Option.isSome_iff_exists.mpr ⟨h, hh⟩
  · obtain ⟨h, hh, -⟩ := step_host_kept (fun env he => hrefresh ⟨env, he⟩)
      (fun base found he => hcompute ⟨base, found, he⟩) (fun addr he => haddr ⟨addr, he⟩) ht hu
    exact Option.isSome_iff_exists.mpr ⟨h, hh⟩

/-! ### Runs -/

theorem hosts_asking (base : Level) (ifaces : Option (List Interface)) (w : WorkerId) (first : Hosts) :
    Asking Hosts.step (Hosts.view base ifaces w) (Hosts.asks w) (fun m => (m.host w).isSome)
      (fun m => m.view base ifaces w = first.view base ifaces w) (Hosts.Told ifaces w) where
  lives := hosts_lives
  keeps ht hlives htold hasks := view_same htold hasks ht hlives
  fresh ht hlives htold hasks hfirst := (view_same htold hasks ht hlives).trans hfirst

/-- In every run of hosts with one controller, while the interfaces of the machine stay and nobody else sets the address of
    a host, what the host was last seen to show is what it should show now, unless an update of it is due, or it has not
    been updated and should show what it should have from the beginning. For an IP agent this holds whatever happens; for a
    default gateway while no refresh that changes its route is left by an exception of the check that it starts; and for a
    DNS agent while each refresh that changes its address or its DNS state returns true. --/
theorem hosts_current (pid : Nat) (workers : WorkerId → Icmp.Worker) (hosts : WorkerId → Option Host) (base : Level)
    (ifaces : Option (List Interface)) (w : WorkerId) (is : List (Turn Input))
    (htold : Along (turn Hosts.step (Hosts.view base ifaces w) (Hosts.asks w))
      (fun s i => ∀ j, i = .call j → s.state.Told ifaces w j) (.start (Hosts.init pid workers hosts)) is) :
    Always (turn Hosts.step (Hosts.view base ifaces w) (Hosts.asks w))
      (fun s => (s.state.host w).isSome → s.due = true ∨ s.shown = some (s.state.view base ifaces w) ∨
        s.shown = none ∧ s.state.view base ifaces w = (Hosts.init pid workers hosts).view base ifaces w)
      (.start (Hosts.init pid workers hosts)) is :=
  (hosts_asking base ifaces w _).always (fun _ => rfl) htold

/-- An IP agent that gets a timeout, and a DNS agent whose refresh returns true, as its name is not found. --/
theorem hosts_current_timeout :
    let env : Host.RefreshEnv :=
      { detect := { recvs := [], ifname := fun _ => "" }
        dns := { answer := .failed Dns.HOST_NOT_FOUND }
        insert := { start := { socket := some 7 } } }
    let hosts : WorkerId → Option Host := fun w => if w = 0 then some (.ip {}) else some (.dns { hostname := "a" })
    let first : Hosts := .init 1 (fun _ => { addr := .inet 1 }) hosts
    let Current (w : WorkerId) (s : Shown Hosts (Option (Computed ⊕ Dns.State))) : Prop :=
      (s.state.host w).isSome → s.due = true ∨ s.shown = some (s.state.view .ready (some []) w) ∨
        s.shown = none ∧ s.state.view .ready (some []) w = first.view .ready (some []) w
    Always (turn Hosts.step (Hosts.view .ready (some []) 0) (Hosts.asks 0)) (Current 0) (.start first)
        [.call (.refresh 0 env), .call .onTimer, .call (.task fun _ => { now := 10 }), .update] ∧
      Always (turn Hosts.step (Hosts.view .ready (some []) 1) (Hosts.asks 1)) (Current 1) (.start first)
        [.update, .call (.refresh 1 env), .call (.refresh 1 env), .update] := by
  intro env hosts first Current
  constructor
  · refine hosts_current 1 _ hosts .ready (some []) 0 _ ⟨fun j hj => ?_, fun _ _ => ⟨fun j hj => ?_, fun _ _ =>
      ⟨fun j hj => ?_, fun _ _ => ⟨fun j hj => ?_, fun _ _ => trivial⟩⟩⟩⟩ <;> cases hj
    · rintro - h hh
      obtain rfl := Option.some.inj hh
      exact trivial
    · exact trivial
    · exact trivial
  · refine hosts_current 1 _ hosts .ready (some []) 1 _ ⟨fun j hj => ?_, fun _ ht => ⟨fun j hj => ?_, fun _ ht' =>
      ⟨fun j hj => ?_, fun _ _ => ⟨fun j hj => ?_, fun _ _ => trivial⟩⟩⟩⟩ <;> cases hj
    · cases ht
      rintro - h hh
      obtain rfl := Option.some.inj hh
      exact Or.inl (by decide)
    · cases ht
      cases ht'
      rintro - h hh
      obtain rfl := Option.some.inj hh
      refine Or.inr fun u goes hu => ?_
      cases hu
      exact ⟨rfl, rfl⟩

end UdjatNetwork.Ip
