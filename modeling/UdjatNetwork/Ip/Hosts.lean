import UdjatNetwork.Ip.Factory
import UdjatNetwork.Ip.Monitor

/-! # Hosts and their controller

The agents of every class are workers of the one controller. A DNS agent and a default gateway find their address first,
and then do what an `IP::Agent` does; none of them has a `set` of its own for the results of its checks. -/

namespace UdjatNetwork.Ip
open Icmp (WorkerId)
open Icmp.Controller (InsertEnv TimerEnv Recv)

namespace Host

/-- The `IP::Agent` that a host derives from. -/
def toAgent : Host → Agent
  | .ip a => a
  | .gateway g => g.toAgent
  | .dns d => d.toAgent

/-- The host, with what an `IP::Agent` has done to it. -/
def withAgent (h : Host) (a : Agent) : Host :=
  match h with
  | .ip _ => .ip a
  | .gateway g => .gateway { g with toAgent := a }
  | .dns d => .dns { d with toAgent := a }

@[simp] theorem toAgent_withAgent (h : Host) (a : Agent) : (h.withAgent a).toAgent = a := by cases h <;> rfl

@[simp] theorem withAgent_withAgent (h : Host) (a b : Agent) : (h.withAgent a).withAgent b = h.withAgent b := by
  cases h <;> rfl

@[simp] theorem withAgent_toAgent (h : Host) : h.withAgent h.toAgent = h := by cases h <;> rfl

/-- What the system gives to one `refresh`, of which a host of each class takes its own. -/
structure RefreshEnv where
  detect : DetectEnv
  dns : Dns.RefreshEnv
  insert : InsertEnv

/-- What `refresh` does before it calls `IP::Agent::refresh`, and whether it comes to that. -/
def locate (h : Host) (env : RefreshEnv) : Option (Host × Bool) :=
  match h with
  | .ip a => some (.ip a, true)
  | .gateway g =>
    match g.detect env.detect with
    | (.ok g, _) => some (.gateway g, true)
    | (.threw g, _) => some (.gateway g, false)
    | (.undefined, _) => none
  | .dns d =>
    match d.resolveServer env.dns with
    | .error e => (d.caught e).1.state?.map fun d => (.dns d, false)
    | .ok none => none
    | .ok (some d) =>
      match d.resolveHost env.dns with
      | .error e => (d.caught e).1.state?.map fun d => (.dns d, false)
      | .ok none => none
      | .ok (some d) => some (.dns (d.set Dns.NETDB_SUCCESS).1, true)

/-- `computeState`, with the level of the state that the base class computes, and the interfaces of the machine. -/
def computeState (h : Host) (base : Level) (ifaces : Option (List Interface)) : Host × Option (Computed ⊕ Dns.State) :=
  match h with
  | .ip a => (.ip (a.computeState base ifaces).1, (a.computeState base ifaces).2.map .inl)
  | .gateway g =>
    (.gateway { g with toAgent := (g.toAgent.computeState base ifaces).1 },
      (g.toAgent.computeState base ifaces).2.map .inl)
  | .dns d => (.dns (d.computeState base ifaces).1, (d.computeState base ifaces).2)

/-- What one host takes, of whichever class it is; `start` tells whether `ICMP::Worker::start` gets through. -/
inductive Input where
  | refresh (env : RefreshEnv) (start : Bool)
  | result (response : Icmp.Response) (source : Address)
  | computeState (base : Level) (ifaces : Option (List Interface))
  | address (addr : Address)

namespace Input

def ip : Input → Agent.Input
  | .refresh _ start => .refresh start
  | .result response source => .result response source
  | .computeState base ifaces => .computeState base ifaces
  | .address addr => .address addr

def gateway : Input → Gateway.Input
  | .refresh env start => .refresh env.detect start
  | .result response source => .result response source
  | .computeState base ifaces => .computeState base ifaces
  | .address addr => .address addr

def dns : Input → Dns.Agent.Input
  | .refresh env start => .refresh { env.dns with start }
  | .result response source => .result response source
  | .computeState base ifaces => .computeState base ifaces
  | .address addr => .address addr

end Input

/-- One step of a host by itself, that of its class. -/
def step (h : Host) (i : Input) : Option Host :=
  match h with
  | .ip a => (a.step i.ip).map .ip
  | .gateway g => (g.step i.gateway).map .gateway
  | .dns d => (d.step i.dns).map .dns

end Host

/-- The controller of `getInstance`, and the hosts that exist, by the numbers of their workers. -/
structure Hosts where
  controller : Icmp.Controller
  hosts : WorkerId → Option Host

namespace Hosts

/-- A host, with what it has of its worker. -/
def host (m : Hosts) (w : WorkerId) : Option Host :=
  (m.hosts w).map fun h =>
    h.withAgent
      { h.toAgent with address := (m.controller.world.workers w).addr, running := m.controller.world.busy w }

/-- The calls of `worker.set`; undefined, when there is no such host any more. -/
def notify (hosts : WorkerId → Option Host) : List Icmp.Event → Option (WorkerId → Option Host)
  | [] => some hosts
  | .set _ w response source :: es =>
    (hosts w).bind fun h =>
      notify (Function.update hosts w (some (h.withAgent (h.toAgent.set response source)))) es
  | _ :: es => notify hosts es

/-- A call of the controller. -/
def call (m : Hosts) (i : Icmp.Controller.Input) : Option Hosts :=
  (m.controller.step i).bind fun controller =>
    (notify m.hosts (Monitor.news m.controller controller)).map fun hosts => { controller, hosts }

def store (m : Hosts) (w : WorkerId) (h : Host) : Hosts :=
  { m with hosts := Function.update m.hosts w (some h) }

/-- What a host found: it keeps the fields of its own class, and the address is that of its worker. -/
def place (m : Hosts) (w : WorkerId) (h : Host) : Option Hosts :=
  (m.hosts w).bind fun old => (m.store w (h.withAgent old.toAgent)).call (.address w h.toAgent.address)

/-- `IP::Agent::refresh`, whose `ICMP::Worker::start` is the `insert` of the controller. -/
def refreshIp (m : Hosts) (w : WorkerId) (env : InsertEnv) : Option Hosts :=
  (m.host w).bind fun h =>
    let a := h.toAgent
    if a.address.isEmpty || !a.check || a.running then
      (a.refresh false).state?.map fun a => m.store w (h.withAgent a)
    else m.call (.insert w env)

/-- `refresh`, of a host of whichever class. -/
def refresh (m : Hosts) (w : WorkerId) (env : Host.RefreshEnv) : Option Hosts :=
  (m.host w).bind fun h =>
    (h.locate env).bind fun found =>
      (m.place w found.1).bind fun m => if found.2 then m.refreshIp w env.insert else some m

/-- `~Worker`, with the host. -/
def destroy (m : Hosts) (w : WorkerId) : Option Hosts :=
  (m.hosts w).bind fun _ =>
    (m.call (.remove w)).map fun m => { m with hosts := Function.update m.hosts w none }

inductive Input where
  | refresh (w : WorkerId) (env : Host.RefreshEnv)
  | computeState (w : WorkerId) (base : Level) (ifaces : Option (List Interface))
  | address (w : WorkerId) (addr : Address)
  | destroy (w : WorkerId)
  | onTimer
  | task (env : Nat → TimerEnv)
  | handleEvent (oninput : Bool) (recv : Recv) (now : Nat → Timespec)

/-- One step: a call of a host, which must exist, or one of the main loop or the thread pool. -/
def step (m : Hosts) : Input → Option Hosts
  | .refresh w env => m.refresh w env
  | .computeState w base ifaces => (m.host w).map fun h => m.store w (h.computeState base ifaces).1
  | .address w addr => (m.hosts w).bind fun _ => m.call (.address w addr)
  | .destroy w => m.destroy w
  | .onTimer => m.call .onTimer
  | .task env => m.call (.task env)
  | .handleEvent oninput recv now => m.call (.handleEvent oninput recv now)

/-- Hosts whose constructors have run, and the controller before its first call. -/
def init (pid : Nat) (workers : WorkerId → Icmp.Worker) (hosts : WorkerId → Option Host) : Hosts where
  controller := .init pid workers
  hosts := hosts

end Hosts
end UdjatNetwork.Ip
