import UdjatNetwork.Icmp.Packet
import UdjatNetwork.Icmp.Response
import UdjatNetwork.Support.Pass

/-! # The ICMP controller

`ICMP::Controller` and its `Host` (`os/linux/icmp_controller.cc`, `os/linux/icmphost.cc`). A call takes the
answers of the system as an argument: clocks, system calls, packets, and which workers leave their `set`
by an exception. The state also records what happened to every host, for the statements about runs. -/

namespace UdjatNetwork.Icmp
open Pass

abbrev WorkerId := Nat

structure Worker where
  addr : Address := .empty
  timeout : Int := 5
  interval : Int := 1
  time : UInt64 := 0
  busy : Bool := false
deriving Repr, DecidableEq

/-- `ICMP::Controller::Host`. Nodes of the list are numbered in the order of their construction. -/
structure Host where
  node : Nat
  worker : WorkerId
  id : UInt16
  timeout : Int
  packets : UInt16 := 0
  next : Int := 0
deriving Repr, DecidableEq

/-- What happens to the host in a node. -/
inductive Event where
  | inserted (node : Nat) (worker : WorkerId)
  | set (node : Nat) (worker : WorkerId) (response : Response) (source : Address)
  | removed (node : Nat) (worker : WorkerId)
deriving Repr, DecidableEq

def Event.node : Event → Nat
  | inserted node _ => node
  | set node _ _ _ => node
  | removed node _ => node

def Event.isSet : Event → Bool
  | set _ _ _ _ => true
  | _ => false

/-- An echo request handed to `sendto`, and the node of the host it is for. -/
structure Sent where
  node : Nat
  seq : UInt16
  payload : Payload
deriving Repr, DecidableEq

/-- The part of the state that a visit of a host may change. -/
structure World where
  workers : WorkerId → Worker
  log : List Event := []
  sent : List Sent := []

namespace World

def setBusy (w : World) (id : WorkerId) (busy : Bool) : World :=
  { w with workers := fun v => if v = id then { w.workers v with busy } else w.workers v }

def setTime (w : World) (id : WorkerId) (time : UInt64) : World :=
  { w with workers := fun v => if v = id then { w.workers v with time } else w.workers v }

def setAddr (w : World) (id : WorkerId) (addr : Address) : World :=
  { w with workers := fun v => if v = id then { w.workers v with addr } else w.workers v }

def record (w : World) (e : Event) : World := { w with log := w.log ++ [e] }

/-- `worker.set(response, source)`, called for the host. -/
def set (w : World) (h : Host) (response : Response) (source : Address) : World :=
  w.record (.set h.node h.worker response source)

def busy (w : World) (id : WorkerId) : Bool := (w.workers id).busy

variable (w : World) (h : Host) (v id : WorkerId)

@[simp] theorem busy_setBusy (b : Bool) : (w.setBusy id b).busy v = if v = id then b else w.busy v := by
  unfold setBusy busy
  dsimp only
  split <;> rfl

@[simp] theorem busy_setTime (t : UInt64) : (w.setTime id t).busy v = w.busy v := by
  unfold setTime busy
  dsimp only
  split <;> rfl

@[simp] theorem busy_setAddr (a : Address) : (w.setAddr id a).busy v = w.busy v := by
  unfold setAddr busy
  dsimp only
  split <;> rfl

@[simp] theorem addr_setBusy (b : Bool) : ((w.setBusy id b).workers v).addr = (w.workers v).addr := by
  unfold setBusy
  dsimp only
  split <;> rfl

@[simp] theorem addr_setTime (t : UInt64) : ((w.setTime id t).workers v).addr = (w.workers v).addr := by
  unfold setTime
  dsimp only
  split <;> rfl

@[simp] theorem interval_setBusy (b : Bool) : ((w.setBusy id b).workers v).interval = (w.workers v).interval := by
  unfold setBusy
  dsimp only
  split <;> rfl

@[simp] theorem interval_setTime (t : UInt64) : ((w.setTime id t).workers v).interval = (w.workers v).interval := by
  unfold setTime
  dsimp only
  split <;> rfl

@[simp] theorem interval_setAddr (a : Address) : ((w.setAddr id a).workers v).interval = (w.workers v).interval := by
  unfold setAddr
  dsimp only
  split <;> rfl

@[simp] theorem busy_record (e : Event) : (w.record e).busy v = w.busy v := rfl

@[simp] theorem busy_set (r : Response) (source : Address) : (w.set h r source).busy v = w.busy v := rfl

@[simp] theorem busy_sent (sent : List Sent) : ({ w with sent } : World).busy v = w.busy v := rfl

@[simp] theorem log_setBusy (b : Bool) : (w.setBusy id b).log = w.log := rfl

@[simp] theorem log_setTime (t : UInt64) : (w.setTime id t).log = w.log := rfl

@[simp] theorem log_setAddr (a : Address) : (w.setAddr id a).log = w.log := rfl

@[simp] theorem log_record (e : Event) : (w.record e).log = w.log ++ [e] := rfl

@[simp] theorem log_set (r : Response) (source : Address) :
    (w.set h r source).log = w.log ++ [.set h.node h.worker r source] := rfl

end World

/-- `ICMP::Controller`, with its `Timer` and `Handler` bases and the two static counters. `queued` counts
    the callbacks that `on_timer` pushed to the thread pool and that did not run yet. -/
structure Controller where
  pid : Nat
  fd : Int := -1
  handler : Bool := false
  timer : Bool := false
  queued : Nat := 0
  hosts : List Host := []
  id : UInt16 := 0
  seq : UInt16 := 0
  nodes : Nat := 0
  world : World

/-- `ICMP::Controller::getCurrentTime()`, from what the clock reads. -/
def getCurrentTime (tm : Timespec) : UInt64 :=
  UInt64.ofNat tm.sec * 1000000 + UInt64.ofNat tm.nsec

/-! ## Hosts -/

/-- The answers of the system to one `Host::send`: `errno` is set when `sendto` does not send the whole
    packet, and `throws` tells the nodes whose workers leave `set` by an exception. -/
structure SendEnv where
  time : Int := 0
  clock : Timespec := {}
  errno : Option Nat := none
  throws : Nat → Bool := fun _ => false

/-- `Host::onError`; only this call may pass on an exception of `worker.set`. -/
def Host.onError (h : Host) (code : Nat) (payload : Payload) (throws : Nat → Bool) (w : World) :
    World × Option Bool :=
  if payload.id = h.id then
    if code = ENETUNREACH then
      (w.set h .networkUnreachable .empty, if throws h.node then none else some true)
    else (w, some false)
  else (w, some false)

/-- `Host::onResponse`; exceptions of `worker.set` are caught there. -/
def Host.onResponse (h : Host) (type : UInt8) (addr : Address) (payload : Payload) (now : Timespec)
    (w : World) : World × Bool :=
  if payload.id ≠ h.id then (w, false)
  else if type = ICMP_ECHO then (w, false)
  else if type = ICMP_ECHOREPLY then
    let now := getCurrentTime now
    let time := if payload.time ≥ now then payload.time - now else now - payload.time
    ((w.setTime h.worker time).set h .echoReply addr, true)
  else if type = ICMP_DEST_UNREACH then (w.set h .destinationUnreachable addr, true)
  else if type = ICMP_TIME_EXCEEDED then (w.set h .timeExceeded addr, true)
  else (w, true)

namespace Controller

def errorPred (code : Nat) (payload : Payload) (throws : Nat → Bool) (h : Host) (w : World) :
    World × Verdict :=
  match h.onError code payload throws w with
  | (w, some true) => (w.setBusy h.worker false, .drop)
  | (w, some false) => (w, .keep)
  | (w, none) => (w, .raise)

/-- `ICMP::Controller::send`, for the host in `node`. The exceptions it throws are caught in
    `Host::send`, so only what it did until then counts. -/
def send (s : Controller) (node : Nat) (addr : Address) (payload : Payload) (env : SendEnv) : Controller :=
  if s.fd < 0 then s
  else match addr with
    | .inet _ =>
      let seq := s.seq + 1
      let world := { s.world with sent := s.world.sent ++ [{ node, seq, payload }] }
      match env.errno with
      | none => { s with seq, world }
      | some code =>
        let (hosts, world, _) := sweep (errorPred code payload env.throws) s.hosts world
        { s with seq, hosts, world }
    | _ => s

/-- The host in its node of the list, as it now is. -/
def store (s : Controller) (h : Host) : Controller :=
  { s with hosts := s.hosts.map fun x => if x.node = h.node then h else x }

/-- `Host::send`, for a host of the list or one under construction; the host it leaves comes with it. -/
def hostSend (s : Controller) (h : Host) (env : SendEnv) : Controller × Host :=
  let worker := s.world.workers h.worker
  let h := { h with next := env.time + worker.interval, packets := h.packets + 1 }
  let payload : Payload := { id := h.id, seq := h.packets, time := getCurrentTime env.clock }
  ((s.store h).send h.node worker.addr payload env, h)

/-! ## The listener -/

/-- The answers of the system to `start`: `getprotobyname`, `socket`, and both calls of `fcntl`. -/
structure StartEnv where
  proto : Option Nat := some 1
  socket : Option Nat
  getFlags : Bool := true
  setFlags : Bool := true

/-- Every call that creates the socket succeeds. -/
def StartEnv.opens (env : StartEnv) : Bool :=
  env.proto.isSome && env.socket.isSome && env.getFlags && env.setFlags

def stop (s : Controller) : Controller := { s with handler := false, timer := false, fd := -1 }

/-- The part of `start` that creates the socket, and whether it gets through. -/
def openSocket (s : Controller) (env : StartEnv) : Controller × Bool :=
  if s.fd ≤ 0 then
    match env.proto, env.socket with
    | none, _ => (s, false)
    | some _, none => ({ s with fd := -1 }, false)
    | some _, some fd => ({ s with fd }, env.getFlags && env.setFlags)
  else (s, true)

def start (s : Controller) (env : StartEnv) : Outcome Controller :=
  match s.openSocket env with
  | (s, true) => .ok { s with timer := true, handler := true }
  | (s, false) => .threw s.stop

/-! ## Calls -/

/-- The answers of the system to one `insert`; `time` is what the constructor of the host reads. -/
structure InsertEnv where
  start : StartEnv
  time : Int := 0
  send : SendEnv := {}

/-- `hosts.emplace_back(worker)`: the host sends its first packet while it is constructed, and the list
    gets the node after that. -/
def emplaceBack (s : Controller) (w : WorkerId) (env : InsertEnv) : Controller :=
  let h : Host :=
    { node := s.nodes, worker := w, id := s.id, timeout := env.time + (s.world.workers w).interval }
  let s :=
    { s with id := s.id + 1, nodes := s.nodes + 1, world := s.world.record (.inserted h.node w) }
  let (s, h) := s.hostSend h env.send
  { s with hosts := s.hosts ++ [h] }

def insert (s : Controller) (w : WorkerId) (env : InsertEnv) : Outcome Controller :=
  if s.world.busy w then .threw s
  else match s.start env.start with
    | .ok s => .ok ({ s with world := s.world.setBusy w true }.emplaceBack w env)
    | o => o

def removePred (w : WorkerId) (h : Host) (world : World) : World × Verdict :=
  if h.worker = w then ((world.setBusy w false).record (.removed h.node w), .drop) else (world, .keep)

def stopIfEmpty (s : Controller) : Controller := if s.hosts.isEmpty then s.stop else s

def remove (s : Controller) (w : WorkerId) : Controller :=
  let (hosts, world, _) := sweep (removePred w) s.hosts s.world
  { s with hosts, world }.stopIfEmpty

/-- The answers of the system to one visit of `Host::onTimer`: the time it reads, and what `Host::send`
    gets. An exception of `set(timeout)` is among those that `send.throws` tells. -/
structure TimerEnv where
  now : Int
  send : SendEnv := {}

/-- `Host::onTimer`; no answer, when `worker.set` throws. -/
def onTimer (s : Controller) (h : Host) (env : TimerEnv) : Controller × Option Bool :=
  if env.now > h.timeout then
    ({ s with world := s.world.set h .timeout .empty }, if env.send.throws h.node then none else some false)
  else if env.now ≥ h.next then ((s.hostSend h env.send).1, some true)
  else (s, some true)

def nodeList (s : Controller) : List Nat := s.hosts.map (·.node)

def unlink (n : Nat) (s : Controller) : Controller := { s with hosts := s.hosts.filter (·.node ≠ n) }

def timerPred (env : Nat → TimerEnv) (n : Nat) (s : Controller) : Controller × Verdict :=
  match s.hosts.find? (·.node = n) with
  | none => (s, .keep)
  | some h =>
    match s.onTimer h (env n) with
    | (s, some false) => ({ s with world := s.world.setBusy h.worker false }, .drop)
    | (s, some true) => (s, .keep)
    | (s, none) => (s, .raise)

/-- The callback of `on_timer`: the pass, then `stop` when no host is left. -/
def timerTask (s : Controller) (env : Nat → TimerEnv) : Outcome Controller :=
  match removeIf nodeList unlink (timerPred env) s.nodeList s with
  | .ok s => .ok s.stopIfEmpty
  | o => o

/-- What `recvfrom` gives: an error, or a datagram and its source. -/
inductive Recv where
  | error (errno : Nat)
  | datagram (bytes : List UInt8) (addr : Address)

/-- `sizeof(in)`, the buffer of `handle_event`. -/
def sizeofIn : Nat := sizeofIphdr + sizeofPacket

/-- The packet that passes the checks of `handle_event`: `recvfrom` cuts the datagram to the buffer and
    returns its length, which must be the size of the buffer, and the identifier must be the one of the
    process. -/
def accepted (pid : Nat) : Recv → Option (Packet × Address)
  | .error _ => none
  | .datagram bytes addr =>
    let buf := bytes.take sizeofIn
    let packet := Packet.ofBytes (buf.drop sizeofIphdr)
    if buf.length ≠ sizeofIn then none
    else if htons packet.id ≠ UInt16.ofNat pid then none
    else some (packet, addr)

/-- The predicate of the removal pass in `handle_event`; `now` is the clock at the visit of each node. -/
def responsePred (packet : Packet) (addr : Address) (now : Nat → Timespec) (h : Host) (w : World) :
    World × Verdict :=
  match h.onResponse packet.type addr packet.payload (now h.node) w with
  | (w, true) => (w.setBusy h.worker false, .drop)
  | (w, false) => (w, .keep)

/-- `ICMP::Controller::handle_event`, for an event that has `oninput` set or not. -/
def handleEvent (s : Controller) (oninput : Bool) (recv : Recv) (now : Nat → Timespec) : Controller :=
  if oninput then
    match accepted s.pid recv with
    | none => s
    | some (packet, addr) =>
      let (hosts, world, _) := sweep (responsePred packet addr now) s.hosts s.world
      { s with hosts, world }
  else s

/-! ## The machine -/

/-- What may happen next. The main loop calls `on_timer` only while the timer is enabled, and the thread
    pool runs only callbacks that were pushed. The owner of a worker may assign it another address. -/
inductive Input where
  | insert (w : WorkerId) (env : InsertEnv)
  | remove (w : WorkerId)
  | onTimer
  | task (env : Nat → TimerEnv)
  | handleEvent (oninput : Bool) (recv : Recv) (now : Nat → Timespec)
  | address (w : WorkerId) (addr : Address)

/-- One step, under the controller's mutex. -/
def step (s : Controller) : Input → Option Controller
  | .insert w env => (s.insert w env).state?
  | .remove w => some (s.remove w)
  | .onTimer => some (if s.timer then { s with queued := s.queued + 1 } else s)
  | .task env => if s.queued = 0 then some s else ({ s with queued := s.queued - 1 }.timerTask env).state?
  | .handleEvent oninput recv now => some (s.handleEvent oninput recv now)
  | .address w addr => some { s with world := s.world.setAddr w addr }

/-- The controller before its first call; no worker is busy yet. -/
def init (pid : Nat) (workers : WorkerId → Worker) : Controller :=
  { pid, world := { workers := fun w => { workers w with busy := false } } }

end Controller
end UdjatNetwork.Icmp
