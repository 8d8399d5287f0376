import UdjatNetwork.Theorems.EchoReply
import UdjatNetwork.Theorems.Identifiers
import UdjatNetwork.Theorems.Insertions
import UdjatNetwork.Theorems.Reply

/-! # Checks over a network

The controller and the machines that it checks, with a network between them that loses, repeats, delays and reorders
packets. A machine answers a request that was sent to its address; other packets reach the socket too, but no one
forges an echo reply. A check is then answered by a machine that a packet of this very check was sent to, until the
identifiers of 16 bits wrap around. -/

namespace UdjatNetwork.Icmp
open Pass Machine Controller

/-- An echo request in the network, with its host, and with the address that the worker of the host had when it was
    sent. -/
structure Request where
  node : Nat
  worker : WorkerId
  packet : Packet
  destination : Address
deriving Repr, DecidableEq

/-- The worker of the host that was inserted in a node. -/
def workerOf (log : List Event) (n : Nat) : Option WorkerId :=
  log.findSome? fun
    | .inserted m w => if m = n then some w else none
    | _ => none

/-- The packet as `send` hands it to `sendto`. -/
def Controller.request (s : Controller) (p : Sent) : Option Request :=
  (workerOf s.world.log p.node).map fun w =>
    { node := p.node, worker := w, packet := echoRequest s.pid p.seq p.payload
      destination := (s.world.workers w).addr }

/-- The network remembers all packets: what is lost is never delivered, and what is repeated is delivered again. -/
structure Network where
  controller : Controller
  requests : List Request := []
  datagrams : List (List UInt8 × Address) := []

namespace Network

/-- A call of the controller, and the packets that it sends. -/
def call (net : Network) (i : Controller.Input) : Option Network :=
  (net.controller.step i).map fun t =>
    { net with
      controller := t
      requests := net.requests ++ (t.world.sent.drop net.controller.world.sent.length).filterMap t.request }

/-- Whether the controller would take a datagram for an echo reply. -/
def isReply (pid : Nat) (bytes : List UInt8) (source : Address) : Bool :=
  match accepted pid (.datagram bytes source) with
  | some (packet, _) => decide (packet.type = ICMP_ECHOREPLY)
  | none => false

inductive Input where
  | call (i : Controller.Input)
  | respond (k : Nat) (reply : EchoReply)
  | other (bytes : List UInt8) (source : Address)
  | deliver (k : Nat) (now : Nat → Timespec)

/-- One step: a call that receives no datagram, the answer to a request from the address that it was sent to, another
    packet that reaches the machine, or a datagram that the controller receives. -/
def step (net : Network) : Input → Option Network
  | .call (.handleEvent _ (.datagram _ _) _) => none
  | .call i => net.call i
  | .respond k reply => net.requests[k]?.map fun q =>
      { net with datagrams := net.datagrams ++ [(reply.bytes q.packet, q.destination)] }
  | .other bytes source =>
    if isReply net.controller.pid bytes source then none
    else some { net with datagrams := net.datagrams ++ [(bytes, source)] }
  | .deliver k now => net.datagrams[k]?.bind fun d => net.call (.handleEvent true (.datagram d.1 d.2) now)

def init (pid : Nat) (workers : WorkerId → Worker) : Network where
  controller := .init pid workers

/-- Every echo reply that a worker was told comes from an address to which a packet was sent, for a host with the
    identifier of its own; it was sent for the host itself, while there are no more hosts than identifiers. -/
def Replied (net : Network) : Prop :=
  ∀ n w source, .set n w .echoReply source ∈ net.controller.world.log →
    ∃ q ∈ net.requests, q.destination = source ∧ q.node ≡ n [MOD 2 ^ 16] ∧
      (net.controller.nodes ≤ 2 ^ 16 → q.node = n ∧ q.worker = w)

end Network

variable {net net' : Network}

/-! ### The network -/

theorem workerOf_eq {log : List Event} {n : Nat} {w : WorkerId} (h : workerOf log n = some w) :
    .inserted n w ∈ log := by
  obtain ⟨e, he, hw⟩ := List.exists_of_findSome?_eq_some h
  cases e with
  | inserted m x =>
    dsimp only at hw
    split_ifs at hw with hm
    cases hw
    rwa [← hm]
  | set | removed => cases hw

theorem exists_workerOf {log : List Event} {n : Nat} (h : ∃ w, .inserted n w ∈ log) : ∃ w, workerOf log n = some w := by
  obtain ⟨w, hw⟩ := h
  refine Option.isSome_iff_exists.mp (List.findSome?_isSome_iff.mpr ⟨_, hw, ?_⟩)
  change (if n = n then some w else none).isSome = true
  rw [if_pos rfl]
  rfl

/-- The reply to a request is accepted, with the payload that was sent. -/
theorem echo_accepted (s : Controller) (p : Sent) (reply : EchoReply) (source : Address) :
    ∃ packet, accepted s.pid (.datagram (reply.bytes (echoRequest s.pid p.seq p.payload)) source) = some (packet, source) ∧
      packet.payload = p.payload := by
  have hid : htons (echoRequest s.pid p.seq p.payload).id = UInt16.ofNat s.pid := htons_htons _
  refine ⟨{ echoRequest s.pid p.seq p.payload with type := ICMP_ECHOREPLY, code := reply.code, cksum := reply.cksum }, ?_, rfl⟩
  rw [reply.bytes_eq, accepted_packet _ reply.length_header, if_pos hid]

namespace Network

/-- What a network keeps, beside `Replied`: no request is forgotten, and what the controller would take for an echo reply
    answers one of them. -/
structure Consistent (net : Network) : Prop where
  known : Known net.controller
  tagged : Tagged net.controller
  requests : ∀ q ∈ net.requests, .inserted q.node q.worker ∈ net.controller.world.log ∧
    ∃ p ∈ net.controller.world.sent, p.node = q.node ∧ q.packet = echoRequest net.controller.pid p.seq p.payload
  sent : net.requests.map (·.node) = net.controller.world.sent.map (·.node)
  datagrams : ∀ d ∈ net.datagrams, isReply net.controller.pid d.1 d.2 = true → ∃ q ∈ net.requests, ∃ packet,
    accepted net.controller.pid (.datagram d.1 d.2) = some (packet, q.destination) ∧
      packet.payload.id = q.packet.payload.id
  replied : net.Replied

theorem consistent_init (pid : Nat) (workers : WorkerId → Worker) : (init pid workers).Consistent where
  known := known_init pid workers
  tagged := tagged_init pid workers
  requests := fun _ hq => by cases hq
  sent := rfl
  datagrams := fun _ hd => by cases hd
  replied := fun _ _ _ he => by cases he

/-- A host that is answered has the identifier of a request, which is one of its own while identifiers are not used
    again. -/
theorem Consistent.own (hnet : net.Consistent) {q : Request} (hq : q ∈ net.requests) {h : Host}
    (hh : h ∈ net.controller.hosts) (hid : q.packet.payload.id = h.id) :
    q.node ≡ h.node [MOD 2 ^ 16] ∧ (net.controller.nodes ≤ 2 ^ 16 → q.node = h.node ∧ q.worker = h.worker) := by
  obtain ⟨hinserted, p, hp, hpn, hpacket⟩ := hnet.requests q hq
  have hpayload : q.packet.payload.id = UInt16.ofNat q.node := by
    rw [hpacket, ← hpn]
    exact hnet.tagged.sent p hp
  have hmod : q.node ≡ h.node [MOD 2 ^ 16] := by
    rw [← ofNat_eq_iff, ← hpayload, hid]
    exact hnet.tagged.hosts h hh
  refine ⟨hmod, fun hle => ?_⟩
  have hlt : q.node < net.controller.nodes := hnet.known.logged _ hinserted
  have hlt' : h.node < net.controller.nodes := hnet.known.numbered.lt h hh
  have hnode : q.node = h.node := hmod.eq_of_lt_of_lt (hlt.trans_le hle) (hlt'.trans_le hle)
  refine ⟨hnode, hnet.known.registered.unique h.node _ _ ?_ (hnet.known.registered.hosts h hh)⟩
  rw [← hnode]
  exact hinserted

/-- A call keeps the network consistent, if each host that it tells an echo reply has the identifier of a request to the
    source. -/
theorem call_consistent {i : Controller.Input} (hnet : net.Consistent)
    (hanswered : ∀ n w source, .set n w .echoReply source ∈ net.controller.answered i → ∃ q ∈ net.requests,
      q.destination = source ∧ ∃ h ∈ net.controller.hosts, h.node = n ∧ h.worker = w ∧ q.packet.payload.id = h.id)
    (hcall : net.call i = some net') : net'.Consistent := by
  obtain ⟨t, ht, rfl⟩ := Option.map_eq_some_iff.mp hcall
  have hknown := step_known hnet.known ht
  have hmoves := step_moves hnet.known.numbered ht
  have hlog : net.controller.world.log <+: t.world.log := hmoves.log_grows
  have hnodes : net.controller.nodes ≤ t.nodes :=
    hmoves.induct (I := fun v => net.controller.nodes ≤ v.nodes) (fun _ _ hI m => hI.trans m.nodes_le) (Nat.le_refl _)
  have hpid := step_pid ht
  obtain ⟨new, hsent⟩ : ∃ new, t.world.sent = net.controller.world.sent ++ new := by
    obtain ⟨new, hnew⟩ := step_sent ht
    exact ⟨new, hnew.symm⟩
  have hnew : t.world.sent.drop net.controller.world.sent.length = new := by rw [hsent, List.drop_left]
  have hrequest : ∀ p ∈ new, ∃ q, t.request p = some q ∧ q.node = p.node := fun p hp => by
    obtain ⟨w, hw⟩ := exists_workerOf (hknown.sent p (by rw [hsent]; exact List.mem_append_right _ hp))
    exact ⟨_, Option.map_eq_some_iff.mpr ⟨w, hw, rfl⟩, rfl⟩
  refine ⟨hknown, step_tagged hnet.known.numbered hnet.tagged ht, fun q hq => ?_, ?_, fun d hd hreply => ?_,
    fun n w source he => ?_⟩
  · rcases List.mem_append.mp hq with hq | hq
    · obtain ⟨hinserted, p, hp, hpn, hpacket⟩ := hnet.requests q hq
      refine ⟨hlog.subset hinserted, p, ?_, hpn, ?_⟩
      · change p ∈ t.world.sent
        rw [hsent]
        exact List.mem_append_left _ hp
      · change q.packet = echoRequest t.pid p.seq p.payload
        rw [hpid]
        exact hpacket
    · rw [hnew] at hq
      obtain ⟨p, hp, hpq⟩ := List.mem_filterMap.mp hq
      obtain ⟨w, hw, rfl⟩ := Option.map_eq_some_iff.mp hpq
      refine ⟨workerOf_eq hw, p, ?_, rfl, rfl⟩
      change p ∈ t.world.sent
      rw [hsent]
      exact List.mem_append_right _ hp
  · change (net.requests ++ _).map _ = t.world.sent.map _
    rw [hnew, List.map_append, hnet.sent, hsent, List.map_append]
    refine congrArg _ ?_
    clear hsent hnew
    induction new with
    | nil => rfl
    | cons p ps ih =>
      obtain ⟨q, hq, hqn⟩ := hrequest p List.mem_cons_self
      rw [List.filterMap_cons_some hq, List.map_cons, List.map_cons, hqn,
        ih fun x hx => hrequest x (List.mem_cons_of_mem _ hx)]
  · change isReply t.pid d.1 d.2 = true at hreply
    rw [hpid] at hreply
    obtain ⟨q, hq, packet, hacc, hpayload⟩ := hnet.datagrams d hd hreply
    refine ⟨q, List.mem_append_left _ hq, packet, ?_, hpayload⟩
    change accepted t.pid _ = _
    rw [hpid]
    exact hacc
  · have hreplies : .set n w .echoReply source ∈ t.world.replies := List.mem_filter.mpr ⟨he, rfl⟩
    rw [step_replies ht] at hreplies
    rcases List.mem_append.mp hreplies with hold | hnow
    · obtain ⟨q, hq, hsource, hmod, hown⟩ := hnet.replied n w source (List.mem_filter.mp hold).1
      exact ⟨q, List.mem_append_left _ hq, hsource, hmod, fun hle => hown (hnodes.trans hle)⟩
    · obtain ⟨q, hq, hsource, h, hh, rfl, rfl, hid⟩ := hanswered n w source hnow
      obtain ⟨hmod, hown⟩ := hnet.own hq hh hid
      exact ⟨q, List.mem_append_left _ hq, hsource, hmod, fun hle => hown (hnodes.trans hle)⟩

/-- What a datagram leads to, when the controller takes it for an echo reply. -/
theorem isReply_of_answered {pid : Nat} {bytes : List UInt8} {source : Address} {packet : Packet} {a : Address}
    (hacc : accepted pid (.datagram bytes source) = some (packet, a)) :
    isReply pid bytes source = decide (packet.type = ICMP_ECHOREPLY) := by
  rw [isReply, hacc]

theorem step_consistent {i : Input} (hnet : net.Consistent) (ht : net.step i = some net') : net'.Consistent := by
  -- A call without a datagram tells no echo reply.
  have quiet : ∀ {c : Controller.Input}, net.controller.answered c = [] → net.call c = some net' → net'.Consistent :=
    fun hnone hcall => call_consistent hnet (fun n w source he => by rw [hnone] at he; cases he) hcall
  cases i with
  | call c =>
    cases c with
    | handleEvent oninput recv now =>
      cases recv with
      | datagram bytes source => cases ht
      | error errno =>
        refine quiet ?_ ht
        cases oninput <;> rfl
    | insert | remove | onTimer | task | address => exact quiet rfl ht
  | respond k reply =>
    obtain ⟨q, hq, rfl⟩ := Option.map_eq_some_iff.mp ht
    refine ⟨hnet.known, hnet.tagged, hnet.requests, hnet.sent, fun d hd hreply => ?_, hnet.replied⟩
    rcases List.mem_append.mp hd with hd | hd
    · exact hnet.datagrams d hd hreply
    · have hq := List.mem_of_getElem? hq
      obtain ⟨-, p, -, -, hpacket⟩ := hnet.requests q hq
      rw [List.mem_singleton.mp hd]
      obtain ⟨packet, hacc, hpayload⟩ := (echo_accepted net.controller p reply q.destination)
      refine ⟨q, hq, packet, ?_, ?_⟩
      · rw [hpacket]
        exact hacc
      · rw [hpayload, hpacket]
        rfl
  | other bytes source =>
    change (if isReply net.controller.pid bytes source then none else some _) = some net' at ht
    split_ifs at ht with hreply
    cases ht
    refine ⟨hnet.known, hnet.tagged, hnet.requests, hnet.sent, fun d hd hd' => ?_, hnet.replied⟩
    rcases List.mem_append.mp hd with hd | hd
    · exact hnet.datagrams d hd hd'
    · rw [List.mem_singleton.mp hd] at hd'
      exact absurd hd' hreply
  | deliver k now =>
    obtain ⟨⟨bytes, source⟩, hd, ht⟩ := Option.bind_eq_some_iff.mp ht
    refine call_consistent hnet (fun n w a he => ?_) ht
    cases hacc : accepted net.controller.pid (.datagram bytes source) with
    | none =>
      simp only [Controller.answered, hacc] at he
      cases he
    | some p =>
      obtain ⟨packet, a⟩ := p
      simp only [Controller.answered, hacc] at he
      split_ifs at he with htype
      · obtain ⟨h, hh, heq⟩ := List.mem_map.mp he
        obtain ⟨hh, hid⟩ := List.mem_filter.mp hh
        cases heq
        have hreply : isReply net.controller.pid bytes source = true := by
          rw [isReply_of_answered hacc, htype]
          exact decide_eq_true rfl
        obtain ⟨q, hq, packet', hacc', hpayload⟩ := hnet.datagrams _ (List.mem_of_getElem? hd) hreply
        rw [hacc] at hacc'
        cases hacc'
        exact ⟨q, hq, rfl, h, hh, rfl, rfl, hpayload.symm.trans (of_decide_eq_true hid)⟩
      · cases he

/-- In every run over a network that loses, repeats, delays and reorders packets, and in which every echo reply answers a
    request from the address that it was sent to, each echo reply that a worker is told comes from an address to which a
    packet was sent for a host with the same identifier. Up to the 2^16th check it was sent for this very check, to the
    address that its worker then had. --/
theorem replied_always (pid : Nat) (workers : WorkerId → Worker) (is : List Input) :
    Always step Replied (init pid workers) is :=
  (always_of_step (fun _ _ _ hs ht => step_consistent hs ht) (consistent_init pid workers) is).mono fun _ h => h.replied

end Network
end UdjatNetwork.Icmp
