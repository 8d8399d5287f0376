import UdjatNetwork.Theorems.Configured
import UdjatNetwork.Theorems.HostViews
import UdjatNetwork.Theorems.Network

/-! # Hosts over a network

The hosts of a configuration and their controller, with the network of `Theorems/Network.lean` between them and the
machines that they check. A host shows the state for an echo reply only after a machine has answered a packet that was
sent to it, and the packet was one of the host itself, until the identifiers of 16 bits wrap around. -/

namespace UdjatNetwork.Ip
open Machine
open Icmp (WorkerId EchoReply)

/-- The results of a worker, each with the node of the check that it ends. -/
def checksOf (w : WorkerId) : Icmp.Event → List (Nat × Icmp.Response × Address)
  | .set n v response source => if v = w then [(n, response, source)] else []
  | _ => []

/-- The hosts, with the network that their checks go over: the packets that were sent, and those on their way. -/
structure Network where
  hosts : Hosts
  requests : List Icmp.Request := []
  datagrams : List (List UInt8 × Address) := []

namespace Network

/-- The network of the controller that the hosts share. -/
def toIcmp (net : Network) : Icmp.Network where
  controller := net.hosts.controller
  requests := net.requests
  datagrams := net.datagrams

/-- A step of the hosts, and the packets that it sends. -/
def call (net : Network) (i : Hosts.Input) : Option Network :=
  (net.hosts.step i).map fun t =>
    { net with
      hosts := t
      requests := net.requests ++
        (t.controller.world.sent.drop net.hosts.controller.world.sent.length).filterMap t.controller.request }

inductive Input where
  | call (i : Hosts.Input)
  | respond (k : Nat) (reply : EchoReply)
  | other (bytes : List UInt8) (source : Address)
  | deliver (k : Nat) (now : Nat → Timespec)

/-- One step, as of `Icmp.Network`: one of the hosts that receives no datagram, the answer to a request from the address
    that it was sent to, another packet, or a datagram that the controller receives. -/
def step (net : Network) : Input → Option Network
  | .call (.handleEvent _ (.datagram _ _) _) => none
  | .call i => net.call i
  | .respond k reply => net.requests[k]?.map fun q =>
      { net with datagrams := net.datagrams ++ [(reply.bytes q.packet, q.destination)] }
  | .other bytes source =>
    if Icmp.Network.isReply net.hosts.controller.pid bytes source then none
    else some { net with datagrams := net.datagrams ++ [(bytes, source)] }
  | .deliver k now => net.datagrams[k]?.bind fun d => net.call (.handleEvent true (.datagram d.1 d.2) now)

/-- The hosts of a configuration, and the network before the first packet. -/
def init (lib : Libudjat) (pid : Nat) (workers : WorkerId → Icmp.Worker) (nodes : WorkerId → Option HostNode) :
    Network where
  hosts := .init pid workers fun w => (nodes w).bind (Host.ofNode lib)

/-- A host that shows the state for an echo reply was last told one, from an address to which a packet was sent for a
    host with the identifier of the check that it ended; and it was a packet of this check, while there are no more
    checks than identifiers. -/
def Answered (net : Network) : Prop :=
  ∀ w u st, net.hosts.host w = some u → u.toAgent.icmpState = some st → st.id = .echoReply →
    ∃ n source, (net.hosts.controller.world.log.flatMap (checksOf w)).getLast? = some (n, .echoReply, source) ∧
      ∃ q ∈ net.requests, q.destination = source ∧ q.node ≡ n [MOD 2 ^ 16] ∧
        (net.hosts.controller.nodes ≤ 2 ^ 16 → q.node = n ∧ q.worker = w)

end Network

variable {net net' : Network} {m t : Hosts} {w : WorkerId}

/-! ### The controller of the hosts -/

/-- A host has set the address that its refresh found. -/
def Hosts.Placed (m : Hosts) (i : Hosts.Input) (s : Icmp.Controller) : Prop :=
  ∃ v env h u goes, i = .refresh v env ∧ m.host v = some h ∧ h.locate env = some (u, goes) ∧
    s = { m.controller with world := m.controller.world.setAddr v u.toAgent.address }

/-- A step of the hosts comes to one call of the controller or none, for a refresh when the address is set. -/
theorem step_calls {i : Hosts.Input} (ht : m.step i = some t) :
    ∃ s, (s = m.controller ∨ m.Placed i s) ∧ (t.controller = s ∨ ∃ c ∈ i.call, s.step c = some t.controller) := by
  have single : ∀ {n : Hosts} {o : Option Hosts} {j : Monitor.Input}, o.map Hosts.monitor = n.monitor.step j →
      o = some t → t.controller = n.controller ∨ ∃ c ∈ j.call, n.controller.step c = some t.controller := fun {n o j} hj ho =>
    step_controller (m := n.monitor) (t := t.monitor) (by rw [← hj, ho, Option.map_some])
  cases i with
  | refresh v env =>
    obtain ⟨h, hh, ht⟩ := Option.bind_eq_some_iff.mp ht
    obtain ⟨⟨u, goes⟩, hu, ht⟩ := Option.bind_eq_some_iff.mp ht
    obtain ⟨n, hn, ht⟩ := Option.bind_eq_some_iff.mp ht
    refine ⟨n.controller, Or.inr ⟨v, env, h, u, goes, rfl, hh, hu, place_controller hn⟩, ?_⟩
    cases goes with
    | false =>
      cases ht
      exact Or.inl rfl
    | true => exact single (monitor_refreshIp n v env.insert) ht
  | computeState v base ifaces => exact ⟨_, Or.inl rfl, single (monitor_computeState m v base ifaces) ht⟩
  | address v addr => exact ⟨_, Or.inl rfl, single (monitor_address m v addr) ht⟩
  | destroy v => exact ⟨_, Or.inl rfl, single (monitor_destroy m v) ht⟩
  | onTimer => exact ⟨_, Or.inl rfl, single (n := m) (j := .onTimer) (monitor_call m _) ht⟩
  | task env => exact ⟨_, Or.inl rfl, single (n := m) (j := .task env) (monitor_call m _) ht⟩
  | handleEvent oninput recv now =>
    exact ⟨_, Or.inl rfl, single (n := m) (j := .handleEvent oninput recv now) (monitor_call m _) ht⟩

/-! ### The last result of a host -/

theorem responsesOf_eq (w : WorkerId) (es : List Icmp.Event) :
    es.flatMap (responsesOf w) = (es.flatMap (checksOf w)).map fun check => check.2.1 := by
  rw [List.map_flatMap]
  refine congrArg (fun f => es.flatMap f) (funext fun e => ?_)
  cases e with
  | set =>
    unfold responsesOf checksOf
    dsimp only
    split_ifs <;> rfl
  | inserted | removed => rfl

theorem event_of_checksOf {es : List Icmp.Event} {n : Nat} {r : Icmp.Response} {source : Address}
    (h : (n, r, source) ∈ es.flatMap (checksOf w)) : .set n w r source ∈ es := by
  obtain ⟨e, he, hr⟩ := List.mem_flatMap.mp h
  cases e with
  | set k v response a =>
    unfold checksOf at hr
    dsimp only at hr
    split_ifs at hr with hv
    · cases List.mem_singleton.mp hr
      exact hv ▸ he
    · cases hr
  | inserted | removed => cases hr

/-- A host that showed nothing at first shows the state for the last result of its worker. -/
theorem last_of_informed {hosts : WorkerId → Option Host} {u : Host} {st : Icmp.State} (hm : m.Informed hosts)
    (hfresh : ∀ h, hosts w = some h → h.toAgent.icmpState = none) (hu : m.host w = some u)
    (hst : u.toAgent.icmpState = some st) :
    ∃ n source, (m.controller.world.log.flatMap (checksOf w)).getLast? = some (n, st.id, source) := by
  obtain ⟨h, hh, hf⟩ := hm w u hu
  have hstate := hf.icmpState
  rw [hst, hfresh h hh, responsesOf_eq, List.getLast?_map] at hstate
  cases hlast : (m.controller.world.log.flatMap (checksOf w)).getLast? with
  | none =>
    rw [hlast] at hstate
    cases hstate
  | some check =>
    obtain ⟨n, r, source⟩ := check
    rw [hlast] at hstate
    change some st = h.toAgent.stateFor r at hstate
    obtain ⟨st', hst', rfl⟩ := stateFor_id h.toAgent r
    obtain rfl : st = st' := Option.some.inj (hstate.trans hst')
    exact ⟨n, source, rfl⟩

theorem fresh_of_node {lib : Libudjat} {node : Option HostNode} {h : Host} (hh : node.bind (Host.ofNode lib) = some h) :
    h.toAgent.icmpState = none ∧ h.toAgent.response = .invalid := by
  obtain ⟨n, -, hn⟩ := Option.bind_eq_some_iff.mp hh
  obtain ⟨g, -, hfresh⟩ := ofNode_fresh hn
  exact ⟨hfresh.icmpState, hfresh.response⟩

/-! ### Runs of the network -/

namespace Network

theorem address_step (n : Icmp.Network) (v : WorkerId) (addr : Address) :
    n.step (.call (.address v addr)) =
      some { n with controller := { n.controller with world := n.controller.world.setAddr v addr } } := by
  have hrequests : n.requests ++ ((n.controller.world.setAddr v addr).sent.drop n.controller.world.sent.length).filterMap
      { n.controller with world := n.controller.world.setAddr v addr }.request = n.requests := by
    change n.requests ++ List.filterMap _ (List.drop n.controller.world.sent.length n.controller.world.sent) = n.requests
    rw [List.drop_length, List.filterMap_nil, List.append_nil]
  exact congrArg (fun requests => some { n with
    controller := { n.controller with world := n.controller.world.setAddr v addr }, requests }) hrequests

/-- A step of the hosts, for the controller and its network: an address set perhaps, and then one call or none. -/
theorem call_toIcmp {i : Hosts.Input} (hnet : net.call i = some net') :
    ∃ n js, exec Icmp.Network.step net.toIcmp js = some n ∧ n.datagrams = net.datagrams ∧
      (net'.toIcmp = n ∨ ∃ c ∈ i.call, n.call c = some net'.toIcmp) := by
  obtain ⟨t, ht, rfl⟩ := Option.map_eq_some_iff.mp hnet
  obtain ⟨s, hfirst, hlast⟩ := step_calls ht
  have hbefore : s.world.sent = net.hosts.controller.world.sent ∧
      ∃ js, exec Icmp.Network.step net.toIcmp js = some { net.toIcmp with controller := s } := by
    rcases hfirst with rfl | ⟨v, env, h, u, goes, -, -, -, rfl⟩
    · exact ⟨rfl, [], rfl⟩
    · exact ⟨rfl, [.call (.address v u.toAgent.address)], exec_cons_eq_some.mpr ⟨_, address_step _ _ _, rfl⟩⟩
  obtain ⟨hsent, js, hjs⟩ := hbefore
  refine ⟨_, js, hjs, rfl, ?_⟩
  rcases hlast with he | ⟨c, hc, hs⟩
  · left
    unfold toIcmp
    dsimp only
    rw [he, hsent, List.drop_length, List.filterMap_nil, List.append_nil]
  · refine Or.inr ⟨c, hc, Option.map_eq_some_iff.mpr ⟨t.controller, hs, ?_⟩⟩
    dsimp only
    rw [hsent]
    rfl

/-- What a step is: one of the network, which leaves hosts and packets sent as they are, a step of the hosts that receives
    no datagram, or one that receives a datagram of the network. -/
theorem step_cases {i : Input} (hnet : net.step i = some net') :
    (net'.hosts = net.hosts ∧ net'.requests = net.requests ∧ ∃ j, net.toIcmp.step j = some net'.toIcmp) ∨
      (∃ c, i = .call c ∧ net.call c = some net' ∧ ∀ o bytes source now, c ≠ .handleEvent o (.datagram bytes source) now) ∨
      ∃ (k : Nat) (bytes : List UInt8) (source : Address) (now : Nat → Timespec), net.datagrams[k]? = some (bytes, source) ∧
        net.call (.handleEvent true (.datagram bytes source) now) = some net' := by
  cases i with
  | call c =>
    refine Or.inr (Or.inl ⟨c, rfl, ?_⟩)
    cases c with
    | handleEvent oninput recv now =>
      cases recv with
      | datagram bytes source => cases hnet
      | error errno => exact ⟨hnet, fun _ _ _ _ he => by cases he⟩
    | refresh | computeState | address | destroy | onTimer | task => exact ⟨hnet, fun _ _ _ _ he => by cases he⟩
  | respond k reply =>
    obtain ⟨q, hq, rfl⟩ := Option.map_eq_some_iff.mp hnet
    exact Or.inl ⟨rfl, rfl, .respond k reply, Option.map_eq_some_iff.mpr ⟨q, hq, rfl⟩⟩
  | other bytes source =>
    change (if _ then none else some _) = some net' at hnet
    split_ifs at hnet with hreply
    cases hnet
    exact Or.inl ⟨rfl, rfl, .other bytes source, if_neg hreply⟩
  | deliver k now =>
    obtain ⟨⟨bytes, source⟩, hd, hnet⟩ := Option.bind_eq_some_iff.mp hnet
    exact Or.inr (Or.inr ⟨k, bytes, source, now, hd, hnet⟩)

/-- A call of the controller that receives no datagram is a step of its network. -/
theorem icmp_step {c : Hosts.Input} {d : Icmp.Controller.Input} (hd : d ∈ c.call)
    (hc : ∀ o bytes source now, c ≠ .handleEvent o (.datagram bytes source) now) (n : Icmp.Network) :
    n.step (.call d) = n.call d := by
  cases c with
  | handleEvent oninput recv now =>
    cases hd
    cases recv with
    | datagram bytes source => exact absurd rfl (hc _ _ _ _)
    | error errno => rfl
  | computeState => cases hd
  | refresh | address | destroy | onTimer | task =>
    cases hd
    rfl

/-- A step of the hosts and their network is, for the controller and the network, a run of a few steps. -/
theorem step_toIcmp {i : Input} (hnet : net.step i = some net') :
    ∃ js, exec Icmp.Network.step net.toIcmp js = some net'.toIcmp := by
  have given : ∀ {c : Hosts.Input}, net.call c = some net' → (∀ d ∈ c.call, ∃ j, ∀ n : Icmp.Network,
      n.datagrams = net.datagrams → n.step j = n.call d) →
      ∃ js, exec Icmp.Network.step net.toIcmp js = some net'.toIcmp := fun {c} hcall hj => by
    obtain ⟨n, js, hjs, hdatagrams, hlast⟩ := call_toIcmp hcall
    rcases hlast with he | ⟨d, hd, hlast⟩
    · exact ⟨js, hjs.trans (congrArg some he.symm)⟩
    · obtain ⟨j, hj⟩ := hj d hd
      refine ⟨js ++ [j], ?_⟩
      rw [exec_append, hjs, Option.bind_some]
      exact exec_cons_eq_some.mpr ⟨_, (hj n hdatagrams).trans hlast, rfl⟩
  rcases step_cases hnet with ⟨-, -, j, hj⟩ | ⟨c, -, hcall, hc⟩ | ⟨k, bytes, source, now, hd, hcall⟩
  · exact ⟨[j], exec_cons_eq_some.mpr ⟨_, hj, rfl⟩⟩
  · exact given hcall fun d hd => ⟨.call d, fun n _ => icmp_step hd hc n⟩
  · refine given hcall fun c hc => ?_
    cases hc
    refine ⟨.deliver k now, fun n hn => ?_⟩
    change n.datagrams[k]?.bind _ = _
    rw [hn, hd, Option.bind_some]

/-- What runs of the hosts and their network keep. -/
structure Kept (hosts : WorkerId → Option Host) (net : Network) : Prop where
  consistent : net.toIcmp.Consistent
  informed : net.hosts.monitor.Informed fun w => (hosts w).map Host.toAgent

theorem step_kept {hosts : WorkerId → Option Host} {i : Input} (h : net.Kept hosts) (hnet : net.step i = some net') :
    net'.Kept hosts where
  consistent := by
    obtain ⟨js, hjs⟩ := step_toIcmp hnet
    exact (always_of_step (fun _ _ _ hn ht => Icmp.Network.step_consistent hn ht) h.consistent js).of_exec hjs
  informed := by
    have called : ∀ {c : Hosts.Input}, net.call c = some net' →
        net'.hosts.monitor.Informed fun w => (hosts w).map Host.toAgent := fun {c} hc => by
      obtain ⟨t, ht, rfl⟩ := Option.map_eq_some_iff.mp hc
      exact (always_of_step (fun _ _ _ hs ht => step_informed hs ht) h.informed _).of_exec (step_monitor ht)
    rcases step_cases hnet with ⟨he, -⟩ | ⟨c, -, hc, -⟩ | ⟨k, bytes, source, now, -, hc⟩
    · rw [he]
      exact h.informed
    · exact called hc
    · exact called hc

theorem always_kept (lib : Libudjat) (pid : Nat) (workers : WorkerId → Icmp.Worker)
    (nodes : WorkerId → Option HostNode) (is : List Input) :
    Always step (Kept fun w => (nodes w).bind (Host.ofNode lib)) (init lib pid workers nodes) is := by
  have hfirst : (init lib pid workers nodes).toIcmp.Consistent := Icmp.Network.consistent_init pid workers
  exact always_of_step (fun _ _ _ h ht => step_kept h ht)
    ⟨hfirst, informed_init pid workers fun _ _ hh => (fresh_of_node hh).2⟩ is

theorem answered_of_kept {lib : Libudjat} {nodes : WorkerId → Option HostNode}
    (h : net.Kept fun w => (nodes w).bind (Host.ofNode lib)) : net.Answered := by
  intro w u st hu hst hid
  obtain ⟨n, source, hlast⟩ :=
    last_of_informed (informed_monitor h.informed) (fun _ hh => (fresh_of_node hh).1) hu hst
  rw [hid] at hlast
  have hevent := event_of_checksOf (List.mem_of_getLast? hlast)
  exact ⟨n, source, hlast, h.consistent.replied n w source hevent⟩

/-- In every run of the hosts of a configuration over a network that loses, repeats, delays and reorders packets, and in
    which every echo reply answers a request from the address that it was sent to, a host that shows the state for an echo
    reply was answered: its last result came from an address to which a packet was sent for a host with the identifier
    of the check that this result ended, and up to the 2^16th check this packet was sent for this very check. --/
theorem answered_always (lib : Libudjat) (pid : Nat) (workers : WorkerId → Icmp.Worker)
    (nodes : WorkerId → Option HostNode) (is : List Input) :
    Always step Answered (init lib pid workers nodes) is :=
  (always_kept lib pid workers nodes is).mono fun _ h => answered_of_kept h

end Network

/-! ### Hosts with an address of their own -/

def Host.isIp : Host → Bool
  | .ip _ => true
  | _ => false

theorem isIp_withAgent (h : Host) (a : Agent) : (h.withAgent a).isIp = h.isIp := by cases h <;> rfl

/-- What is found of an IP agent is the agent itself. -/
theorem locate_isIp {h u : Host} {env : Host.RefreshEnv} {goes : Bool} (hu : h.locate env = some (u, goes)) :
    u.isIp = h.isIp ∧ (h.isIp = true → u = h) := by
  cases h with
  | ip a =>
    cases hu
    exact ⟨rfl, fun _ => rfl⟩
  | gateway g =>
    refine ⟨?_, fun hf => by cases hf⟩
    rw [Host.locate] at hu
    split at hu <;> cases hu <;> rfl
  | dns d =>
    refine ⟨?_, fun hf => by cases hf⟩
    rw [Host.locate] at hu
    rcases hserver : d.resolveServer env.dns with e | _ | c <;> simp only [hserver] at hu
    · obtain ⟨b, -, he⟩ := Option.map_eq_some_iff.mp hu
      cases he
      rfl
    · cases hu
    rcases hhost : c.resolveHost env.dns with e | _ | b <;> simp only [hhost] at hu
    · obtain ⟨b, -, he⟩ := Option.map_eq_some_iff.mp hu
      cases he
      rfl
    · cases hu
    · cases hu
      rfl

/-- A host is an IP agent as it was before the step, in which it may not be destroyed. -/
theorem step_isIp {i : Hosts.Input} {h u : Host} (ht : m.step i = some t) (hh : m.hosts w = some h)
    (hu : t.hosts w = some u) : u.isIp = h.isIp := by
  have own : (∃ a, t.hosts w = some (h.withAgent a)) → u.isIp = h.isIp := fun ⟨a, ha⟩ => by
    rw [Option.some.inj (hu.symm.trans ha), isIp_withAgent]
  by_cases hd : i = .destroy w
  · subst hd
    obtain ⟨n, -, ht⟩ := Option.bind_eq_some_iff.mp ht
    obtain ⟨c, -, rfl⟩ := Option.map_eq_some_iff.mp ht
    cases (Function.update_self w none c.hosts).symm.trans hu
  by_cases hrefresh : ∃ env, i = .refresh w env
  · obtain ⟨env, rfl⟩ := hrefresh
    obtain ⟨g, hg, ht⟩ := Option.bind_eq_some_iff.mp ht
    obtain ⟨⟨found, goes⟩, hfound, ht⟩ := Option.bind_eq_some_iff.mp ht
    obtain ⟨n, hn, ht⟩ := Option.bind_eq_some_iff.mp ht
    obtain ⟨a, ha⟩ := place_own hn hh
    rw [if_pos rfl] at ha
    obtain ⟨b, hb⟩ : ∃ b, t.hosts w = some (found.withAgent b) := by
      cases goes with
      | false =>
        cases ht
        exact ⟨a, ha⟩
      | true =>
        obtain ⟨b, hb⟩ := refreshIp_own (t := t) ht ha
        exact ⟨b, by rw [hb, Host.withAgent_withAgent]⟩
    obtain ⟨k, hk, rfl⟩ := host_eq_some.mp hg
    obtain rfl := Option.some.inj (hk.symm.trans hh)
    rw [Option.some.inj (hu.symm.trans hb), isIp_withAgent, (locate_isIp hfound).1, isIp_withAgent]
  · exact own (step_own (fun env he => hrefresh ⟨env, he⟩) hd ht hh)

/-- Only who sets the address of a worker changes it. -/
theorem controller_addr {s s' : Icmp.Controller} {c : Icmp.Controller.Input} (hc : ∀ addr, c ≠ .address w addr)
    (hs : s.step c = some s') : (s'.world.workers w).addr = (s.world.workers w).addr := by
  by_cases haddress : ∃ v addr, c = .address v addr
  · obtain ⟨v, addr, rfl⟩ := haddress
    cases hs
    have hv : w ≠ v := fun he => hc addr (he ▸ rfl)
    exact congrArg Icmp.Worker.addr (if_neg hv)
  · exact (Icmp.step_extends (fun v a he => haddress ⟨v, a, he⟩) hs).addr w

/-- The address of an IP agent is the one it had before, unless its owner sets it. -/
theorem step_addr {i : Hosts.Input} {h : Host} (hi : ∀ addr, i ≠ .address w addr) (ht : m.step i = some t)
    (hh : m.hosts w = some h) (hip : h.isIp = true) :
    (t.controller.world.workers w).addr = (m.controller.world.workers w).addr := by
  obtain ⟨s, hfirst, hlast⟩ := step_calls ht
  have hplaced : (s.world.workers w).addr = (m.controller.world.workers w).addr := by
    rcases hfirst with rfl | ⟨v, env, g, u, goes, -, hg, hu, rfl⟩
    · rfl
    · by_cases hv : w = v
      · subst hv
        obtain ⟨k, hk, rfl⟩ := host_eq_some.mp hg
        obtain rfl := Option.some.inj (hk.symm.trans hh)
        obtain rfl := (locate_isIp hu).2 ((isIp_withAgent _ _).trans hip)
        rw [Host.toAgent_withAgent]
        exact congrArg Icmp.Worker.addr (if_pos rfl)
      · exact congrArg Icmp.Worker.addr (if_neg hv)
  rw [← hplaced]
  rcases hlast with he | ⟨c, hc, hs⟩
  · rw [he]
  · refine controller_addr (fun addr he => ?_) hs
    subst he
    cases i with
    | address v a =>
      cases hc
      exact hi _ rfl
    | refresh | computeState | destroy | onTimer | task | handleEvent => cases hc

namespace Network

/-- All packets that were sent for the worker of an IP agent went to the address that it has. -/
def Own (w : WorkerId) (net : Network) : Prop :=
  ∀ h, net.hosts.hosts w = some h → h.isIp = true → ∀ q ∈ net.requests, q.worker = w →
    q.destination = (net.hosts.controller.world.workers w).addr

theorem own_of_step {i : Input} (hi : ∀ addr, i ≠ .call (.address w addr)) (hown : net.Own w)
    (hnet : net.step i = some net') : net'.Own w := by
  obtain ⟨c, hcall, hc⟩ | ⟨hhosts, hrequests⟩ : (∃ c, net.call c = some net' ∧ ∀ addr, c ≠ .address w addr) ∨
      (net'.hosts = net.hosts ∧ net'.requests = net.requests) := by
    rcases step_cases hnet with ⟨hhosts, hrequests, -⟩ | ⟨c, rfl, hcall, -⟩ | ⟨k, bytes, source, now, -, hcall⟩
    · exact Or.inr ⟨hhosts, hrequests⟩
    · exact Or.inl ⟨c, hcall, fun addr he => hi addr (he ▸ rfl)⟩
    · exact Or.inl ⟨_, hcall, fun _ he => by cases he⟩
  swap
  · intro h hh
    rw [hhosts] at hh ⊢
    rw [hrequests]
    exact hown h hh
  obtain ⟨t, ht, rfl⟩ := Option.map_eq_some_iff.mp hcall
  intro u hu hip q hq hw
  change t.hosts w = some u at hu
  have hlives : (net.hosts.hosts w).isSome := by
    rw [← host_isSome]
    exact hosts_lives ht ((host_isSome t w).trans (Option.isSome_iff_exists.mpr ⟨u, hu⟩))
  obtain ⟨h, hh⟩ := Option.isSome_iff_exists.mp hlives
  have hbefore : h.isIp = true := (step_isIp ht hh hu).symm.trans hip
  rcases List.mem_append.mp hq with hq | hq
  · exact (hown h hh hbefore q hq hw).trans (step_addr hc ht hh hbefore).symm
  · obtain ⟨p, -, hp⟩ := List.mem_filterMap.mp hq
    obtain ⟨v, -, rfl⟩ := Option.map_eq_some_iff.mp hp
    exact congrArg (fun v => (t.controller.world.workers v).addr) hw

/-- In every run over such a network in which nobody else sets the address of an IP agent, and after at most 2^16 checks,
    the agent shows the state for an echo reply only when the last result of its worker was a reply from its own address,
    to a packet that was sent there for the very check that the reply ended. --/
theorem own_answered (lib : Libudjat) (pid : Nat) (workers : WorkerId → Icmp.Worker)
    (nodes : WorkerId → Option HostNode) (is : List Input) (hexec : exec step (init lib pid workers nodes) is = some net)
    (hchecks : net.hosts.controller.nodes ≤ 2 ^ 16) (w : WorkerId) (hquiet : ∀ addr, .call (.address w addr) ∉ is)
    {a : Agent} {st : Icmp.State} (ha : net.hosts.host w = some (.ip a)) (hst : a.icmpState = some st)
    (hid : st.id = .echoReply) :
    ∃ n, (net.hosts.controller.world.log.flatMap (checksOf w)).getLast? = some (n, .echoReply, a.address) ∧
      ∃ q ∈ net.requests, q.node = n ∧ q.worker = w ∧ q.destination = a.address := by
  have hkept := (always_kept lib pid workers nodes is).of_exec hexec
  have hown : Always step (Own w) (init lib pid workers nodes) is :=
    always_of_along (C := fun _ i => ∀ addr, i ≠ .call (.address w addr)) (fun _ _ _ hs hi ht => own_of_step hi hs ht)
      (fun _ _ _ _ hq => by cases hq) (along_of_forall (C := fun i : Input => ∀ addr, i ≠ .call (.address w addr))
        fun i hi addr he => hquiet addr (he ▸ hi))
  obtain ⟨g, hg, hga⟩ := host_eq_some.mp ha
  have hip : g.isIp = true := by
    rw [← isIp_withAgent, ← hga]
    rfl
  have haddr : a.address = (net.hosts.controller.world.workers w).addr := by
    have := congrArg (fun h => h.toAgent.address) hga
    rwa [Host.toAgent_withAgent] at this
  obtain ⟨n, source, hlast, q, hq, hsource, -, hsame⟩ := answered_of_kept hkept w _ st ha hst hid
  obtain ⟨hnode, hworker⟩ := hsame hchecks
  have hdestination : q.destination = a.address := (hown.of_exec hexec g hg hip q hq hworker).trans haddr.symm
  rw [← hsource, hdestination] at hlast
  exact ⟨n, hlast, q, hq, hnode, hworker, hdestination⟩

/-- A host that is checked twice, and answers both times; the reply to the first check comes twice. --/
theorem own_answered_twice :
    let lib : Libudjat :=
      { address := fun _ => some (.inet 1), select := fun a b => a == b, stateFactory := fun _ => true }
    let env : Host.RefreshEnv :=
      { detect := { recvs := [], ifname := fun _ => "" }
        dns := { answer := .response [] }
        insert := { start := { socket := some 7 } } }
    let s := init lib 1 (fun _ => { addr := .inet 1 }) fun w => if w = 0 then some { ip := some "1.0.0.0" } else none
    let reply : EchoReply := ⟨List.replicate 20 0, 0, 0, rfl⟩
    let is : List Input :=
      [.call (.refresh 0 env), .respond 0 reply, .deliver 0 fun _ => {}, .call (.refresh 0 env), .deliver 0 fun _ => {},
        .respond 1 reply, .deliver 1 fun _ => {}]
    ∃ net, exec step s is = some net ∧ net.hosts.controller.nodes = 2 ∧
      ∃ n, (net.hosts.controller.world.log.flatMap (checksOf 0)).getLast? = some (n, .echoReply, .inet 1) ∧
        ∃ q ∈ net.requests, q.node = n ∧ q.worker = 0 ∧ q.destination = .inet 1 := by
  intro lib env s reply is
  have hrun : (exec step s is).map (fun net => (net.hosts.controller.nodes, net.hosts.host 0)) = some
      (2, some (.ip { address := .inet 1, icmpState := some ⟨"echo-reply", .ready, .echoReply⟩, updates := 2 })) := by
    decide
  obtain ⟨net, hnet, he⟩ := Option.map_eq_some_iff.mp hrun
  obtain ⟨hnodes, hhost⟩ := Prod.mk.inj he
  exact ⟨net, hnet, hnodes, own_answered lib 1 _ _ is hnet (by omega) 0 (by simp [is]) hhost rfl rfl⟩

end Network
end UdjatNetwork.Ip
