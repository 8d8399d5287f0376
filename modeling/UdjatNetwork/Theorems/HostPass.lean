import UdjatNetwork.Theorems.HostClasses
import UdjatNetwork.Theorems.LastPass

/-! # Hosts after the last deadline

A callback of the timer that comes after all deadlines ends every check: the hosts that were being checked take their
timeout, each as a host by itself does, and the others stay as they are. -/

namespace UdjatNetwork.Ip
open Machine Hosts
open Icmp (WorkerId)
open Icmp.Controller (TimerEnv)

variable {m t : Hosts} {w : WorkerId} {env : Nat → TimerEnv}

/-- Of the timeouts of a list of hosts, an agent hears its own. -/
theorem foldl_timedOut {hosts : List Icmp.Host} (hn : (hosts.map (·.worker)).Nodup) (a : Agent) :
    (hosts.map Icmp.Host.timedOut).foldl (Agent.hear w) a =
      if w ∈ hosts.map (·.worker) then a.set .timeout .empty else a := by
  induction hosts generalizing a with
  | nil => rfl
  | cons h hosts ih =>
    obtain ⟨hnot, hn⟩ := List.nodup_cons.mp hn
    rw [List.map_cons, List.foldl_cons, ih hn, List.map_cons, Icmp.Host.timedOut, Agent.hear]
    by_cases hw : h.worker = w
    · subst hw
      rw [if_neg hnot, if_pos rfl, if_pos List.mem_cons_self]
    · have hmem : w ∈ h.worker :: hosts.map (·.worker) ↔ w ∈ hosts.map (·.worker) :=
        List.mem_cons.trans (or_iff_right (Ne.symm hw))
      simp only [if_neg hw, hmem]

/-- In every state that a run of the hosts reaches, a callback of the timer that comes after all deadlines, and whose
    workers do not throw, gets through and leaves no check: each host that was being checked takes its timeout as it does
    by itself, the other hosts stay as they are, and the listener is stopped. --/
theorem hosts_time_out (pid : Nat) (workers : WorkerId → Icmp.Worker) (hosts : WorkerId → Option Host) (is : List Input)
    (hm : exec Hosts.step (Hosts.init pid workers hosts) is = some m) (hq : m.controller.queued ≠ 0)
    (hover : Icmp.Over env m.controller.hosts) :
    ∃ t, m.step (.task env) = some t ∧ t.controller.hosts = [] ∧
      (t.controller.fd = -1 ∧ t.controller.timer = false ∧ t.controller.handler = false) ∧
      ∀ w, t.host w = (m.host w).map fun h =>
        if h.toAgent.running then h.withAgent (h.toAgent.result .timeout .empty) else h := by
  obtain ⟨hsound, halive⟩ := (always_alive pid workers hosts is).of_exec hm
  obtain ⟨s, hs, hnone, hbusy, hstopped, hlog, -⟩ := Icmp.task_over hsound.numbered hsound.flags hq hover
  obtain ⟨t, ht⟩ : ∃ t, m.step (.task env) = some t := by
    refine Option.ne_none_iff_exists'.mp fun hundefined => ?_
    rcases hosts_defined (i := .task env) hsound halive trivial hundefined with ⟨e, he, hstep⟩ | ⟨_, _, _, he, -⟩
    · cases he
      rw [hs] at hstep
      cases hstep
    · cases he
  have hcall : m.monitor.call (.task env) = some t.monitor := by
    rw [← monitor_call, show m.call (.task env) = some t from ht, Option.map_some]
  obtain ⟨hstep, hagents⟩ := call_eq_some hcall
  obtain rfl : s = t.controller := Option.some.inj (hs.symm.trans hstep)
  have hnews : Monitor.news m.monitor.controller t.monitor.controller = m.controller.hosts.map Icmp.Host.timedOut :=
    news_eq hlog
  have haddr : ∀ w, (t.controller.world.workers w).addr = (m.controller.world.workers w).addr :=
    (Icmp.step_extends (fun _ _ he => by cases he) hs).addr
  have hnodup : (m.controller.hosts.map (·.worker)).Nodup := hsound.flags.nodup
  refine ⟨t, ht, hnone, hstopped, fun w => ?_⟩
  cases hh : m.host w with
  | none =>
    have hgone : t.monitor.agents w = none := by
      rw [hagents, Option.map_eq_none_iff]
      exact Option.map_eq_none_iff.mpr (Option.map_eq_none_iff.mp hh)
    exact Option.map_eq_none_iff.mpr (Option.map_eq_none_iff.mp hgone)
  | some h =>
    obtain ⟨g, hg, rfl⟩ := host_eq_some.mp hh
    have hagent : t.monitor.agents w = some (if w ∈ m.controller.hosts.map (·.worker) then
        g.toAgent.set .timeout .empty else g.toAgent) := by
      rw [hagents, hnews, monitor_agents hg, Option.map_some, foldl_timedOut hnodup]
    have hb := agent_eq_some.mpr ⟨_, hagent, rfl⟩
    change t.monitor.agent w = some { (if _ then _ else _ : Agent) with
      address := (t.controller.world.workers w).addr, running := t.controller.world.busy w } at hb
    rw [haddr, hbusy] at hb
    rw [host_of_own (call_own ht hg) hb, Option.map_some, Host.withAgent_withAgent, Host.toAgent_withAgent]
    have hflag : m.controller.world.busy w = true ↔ w ∈ m.controller.hosts.map (·.worker) := hsound.flags.busy w
    by_cases hw : w ∈ m.controller.hosts.map (·.worker)
    · rw [if_pos hw, if_pos (hflag.mpr hw), Agent.result, set_eq, set_eq]
      split_ifs <;> rfl
    · have hidle : m.controller.world.busy w = false := Bool.eq_false_iff.mpr fun hb => hw (hflag.mp hb)
      rw [if_neg hw]
      simp only [hidle, Bool.false_eq_true, if_false]

/-- An IP agent and a DNS agent that get their timeouts, next to a default gateway that was not refreshed. --/
theorem hosts_time_out_three :
    let insert : Host.RefreshEnv :=
      { detect := { recvs := [], ifname := fun _ => "" }
        dns := { answer := .response [⟨1, [10, 0, 0, 1], true⟩] }
        insert := { start := { socket := some 7 } } }
    let s := Hosts.init 1 (fun _ => { addr := .inet 1 }) fun w =>
      if w = 0 then some (.ip {}) else if w = 1 then some (.dns { hostname := "a" }) else if w = 2 then some (.gateway {})
      else none
    let is : List Input := [.refresh 0 insert, .refresh 1 insert, .onTimer]
    ∃ m, exec Hosts.step s is = some m ∧
      ∃ t, m.step (.task fun _ => { now := 10 }) = some t ∧ t.controller.hosts = [] ∧
        (t.controller.fd = -1 ∧ t.controller.timer = false ∧ t.controller.handler = false) ∧
        ∀ w, t.host w = (m.host w).map fun h =>
          if h.toAgent.running then h.withAgent (h.toAgent.result .timeout .empty) else h := by
  intro insert s is
  have hrun : (exec Hosts.step s is).map (fun m => (m.controller.queued, m.controller.hosts.map (·.timeout))) =
      some (1, [1, 1]) := by decide
  obtain ⟨m, hm, he⟩ := Option.map_eq_some_iff.mp hrun
  obtain ⟨hqueued, htimeouts⟩ := Prod.mk.inj he
  have hover : Icmp.Over (fun _ => { now := 10 }) m.controller.hosts := fun h hh => by
    have htimeout : h.timeout ∈ [(1 : Int), 1] := htimeouts ▸ List.mem_map_of_mem hh
    simp only [List.mem_cons, List.not_mem_nil, or_false, or_self] at htimeout
    exact ⟨by simp [Icmp.Host.Expired, htimeout], rfl⟩
  exact ⟨m, hm, hosts_time_out 1 _ _ is hm (by omega) hover⟩

end UdjatNetwork.Ip
