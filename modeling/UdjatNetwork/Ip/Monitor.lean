import Mathlib.Logic.Function.Basic
import UdjatNetwork.Icmp.Controller
import UdjatNetwork.Ip.Agent

/-! # Agents and their controller

An `IP::Agent` is the `ICMP::Worker` of its checks: `refresh` has the controller insert it, the destructor of the worker
has the controller remove it, and in between the controller calls its `set`. The address and the busy flag of an agent
are those of its worker, in the table of the controller. -/

namespace UdjatNetwork.Ip
open Icmp (WorkerId)
open Icmp.Controller (InsertEnv TimerEnv Recv)

/-- The controller of `getInstance`, and the agents that exist, by the numbers of their workers. -/
structure Monitor where
  controller : Icmp.Controller
  agents : WorkerId → Option Agent

namespace Monitor

/-- An agent, with what it has of its worker. -/
def agent (m : Monitor) (w : WorkerId) : Option Agent :=
  (m.agents w).map fun a =>
    { a with address := (m.controller.world.workers w).addr, running := m.controller.world.busy w }

/-- The calls of `worker.set`; undefined, when there is no such agent any more. -/
def notify (agents : WorkerId → Option Agent) : List Icmp.Event → Option (WorkerId → Option Agent)
  | [] => some agents
  | .set _ w response source :: es =>
    (agents w).bind fun a => notify (Function.update agents w (some (a.set response source))) es
  | _ :: es => notify agents es

/-- What happened from one state of the controller to another. -/
def news (s t : Icmp.Controller) : List Icmp.Event := t.world.log.drop s.world.log.length

/-- A call of the controller. -/
def call (m : Monitor) (i : Icmp.Controller.Input) : Option Monitor :=
  (m.controller.step i).bind fun controller =>
    (notify m.agents (news m.controller controller)).map fun agents => { controller, agents }

def store (m : Monitor) (w : WorkerId) (a : Agent) : Monitor :=
  { m with agents := Function.update m.agents w (some a) }

/-- `IP::Agent::refresh`, whose `ICMP::Worker::start` is the `insert` of the controller. -/
def refresh (m : Monitor) (w : WorkerId) (env : InsertEnv) : Option Monitor :=
  (m.agent w).bind fun a =>
    if a.address.isEmpty || !a.check || a.running then (a.refresh false).state?.map (m.store w)
    else m.call (.insert w env)

/-- `~Worker`, with the agent. -/
def destroy (m : Monitor) (w : WorkerId) : Option Monitor :=
  (m.agents w).bind fun _ =>
    (m.call (.remove w)).map fun m => { m with agents := Function.update m.agents w none }

inductive Input where
  | refresh (w : WorkerId) (env : InsertEnv)
  | computeState (w : WorkerId) (base : Level) (ifaces : Option (List Interface))
  | address (w : WorkerId) (addr : Address)
  | destroy (w : WorkerId)
  | onTimer
  | task (env : Nat → TimerEnv)
  | handleEvent (oninput : Bool) (recv : Recv) (now : Nat → Timespec)

/-- One step: a call of an agent, which must exist, or one of the main loop or the thread pool. -/
def step (m : Monitor) : Input → Option Monitor
  | .refresh w env => m.refresh w env
  | .computeState w base ifaces => (m.agent w).map fun a => m.store w (a.computeState base ifaces).1
  | .address w addr => (m.agents w).bind fun _ => m.call (.address w addr)
  | .destroy w => m.destroy w
  | .onTimer => m.call .onTimer
  | .task env => m.call (.task env)
  | .handleEvent oninput recv now => m.call (.handleEvent oninput recv now)

/-- Agents whose constructors have run, and the controller before its first call. -/
def init (pid : Nat) (workers : WorkerId → Icmp.Worker) (agents : WorkerId → Option Agent) : Monitor where
  controller := .init pid workers
  agents := agents

end Monitor
end UdjatNetwork.Ip
