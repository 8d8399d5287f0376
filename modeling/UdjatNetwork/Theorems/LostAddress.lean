import UdjatNetwork.Theorems.DefaultGateway
import UdjatNetwork.Theorems.Refresh

/-! # Refreshes without an address

Whether an agent has no address when a refresh returns depends on the address that it has before, for an
`IP::Agent`, and on what the system answers, for the agents that ask for one. -/

namespace UdjatNetwork.Ip
open Bytes NetLink Records Layout Gateway

theorem refresh_lost (a : Agent) (start : Bool) :
    (∃ b, a.refresh start = .ok b ∧ b.address.isEmpty = true) ↔ a.address.isEmpty = true := by
  have haddress : ∀ b, a.refresh start = .ok b → b.address = a.address := fun b hb =>
    refresh_address (by rw [hb]; rfl)
  constructor
  · rintro ⟨b, hb, hempty⟩
    rwa [← haddress b hb]
  · intro hempty
    obtain ⟨b, hb⟩ : ∃ b, a.refresh start = .ok b := by
      unfold Agent.refresh
      rw [if_pos hempty]
      cases a.ipState <;> exact ⟨_, rfl⟩
    exact ⟨b, hb, by rwa [haddress b hb]⟩

/-- No message of the main table, in the datagram that `detect` takes, has a gateway. -/
def NoGateway (env : DetectEnv) : Prop :=
  env.socket = true ∧ env.send = true ∧ ∃ received, receive {} 0 env.recvs = some received ∧
    ∀ v ∈ nlmsghdr.walk received received.length, field v.1 20 1 = RT_TABLE_MAIN →
      ∀ p ∈ rtattr.walk (v.1.drop rtmsgLength) (nlmsghdr.size v.1 - rtmsgLength), field p.1 2 2 ≠ RTA_GATEWAY

theorem routeAttribute_empty (ifname : Nat → String) (f : Found) (p : List UInt8 × Nat) :
    (∃ t, routeAttribute ifname f p = .ok t ∧ t.gateway.isEmpty = true) ↔
      f.gateway.isEmpty = true ∧ field p.1 2 2 ≠ RTA_GATEWAY := by
  unfold routeAttribute
  split_ifs with hoif hgateway hlong
  · have hne : field p.1 2 2 ≠ RTA_GATEWAY := by
      rw [hoif]
      decide
    simp [hne]
  · simp [hgateway]
  · simp [hgateway, Address.isEmpty]
  · simp [hgateway]

theorem routeEntry_empty (ifname : Nat → String) (f : Found) (v : List UInt8 × Nat) :
    (∃ t, routeEntry ifname f v = .ok t ∧ t.gateway.isEmpty = true) ↔
      f.gateway.isEmpty = true ∧ (field v.1 20 1 = RT_TABLE_MAIN →
        ∀ p ∈ rtattr.walk (v.1.drop rtmsgLength) (nlmsghdr.size v.1 - rtmsgLength), field p.1 2 2 ≠ RTA_GATEWAY) := by
  unfold routeEntry
  split_ifs with hmain
  · simp [hmain]
  · rw [foldlM_ok_iff (routeAttribute_empty ifname)]
    simp [not_not.mp hmain]

theorem Gateway.detect_lost (g : Gateway) (env : DetectEnv) :
    (∃ t, (g.detect env).1 = .ok t ∧ t.address.isEmpty = true) ↔ NoGateway env := by
  unfold Gateway.detect NoGateway
  by_cases hcalls : env.socket = true ∧ env.send = true
  swap
  · refine iff_of_false ?_ fun h => hcalls ⟨h.1, h.2.1⟩
    rw [if_pos (by simpa [imp_iff_not_or] using hcalls)]
    rintro ⟨t, ht, -⟩
    cases ht
  rw [if_neg (by simp [hcalls])]
  simp only [hcalls.1, hcalls.2, true_and]
  cases receive {} 0 env.recvs with
  | none => simp
  | some received =>
    have hloops := foldlM_ok_iff (routeEntry_empty env.ifname) (nlmsghdr.walk received received.length)
      { intf := g.intf }
    simp only [Option.some.injEq, exists_eq_left']
    cases hf : (nlmsghdr.walk received received.length).foldlM (routeEntry env.ifname) { intf := g.intf } with
    | error f =>
      rw [hf] at hloops
      simpa [Address.isEmpty] using hloops
    | ok f =>
      rw [hf] at hloops
      simp only [setAddress]
      simpa [Address.isEmpty] using hloops

theorem Gateway.refresh_lost (g : Gateway) (env : DetectEnv) (start : Bool) :
    (∃ t, (g.refresh env start).1 = .ok t ∧ t.address.isEmpty = true) ↔ NoGateway env := by
  have hip : ∀ u : Gateway, (∃ t, u.refreshIp start = .ok t ∧ t.address.isEmpty = true) ↔
      u.address.isEmpty = true := by
    intro u
    rw [← Ip.refresh_lost u.toAgent start]
    unfold Gateway.refreshIp
    cases u.toAgent.refresh start <;> simp
  rw [← g.detect_lost env]
  unfold Gateway.refresh
  rcases hd : g.detect env with ⟨u | u | _, changed⟩
  · simpa using hip u
  · simp
  · simp

end UdjatNetwork.Ip

namespace UdjatNetwork.Dns
open Agent

variable {a : Agent} {env : RefreshEnv}

/-- The query for the address of the server fails, or the server has no address, or gets none, and the
    query for the host fails or brings another record first. -/
def Agent.LosesAddress (a : Agent) (env : RefreshEnv) : Prop :=
  let server := query (a.serverName.getD "") env.serverAnswer
  let host := query a.hostname env.answer
  (a.AsksServer ∧ env.serverInit = true ∧ Failed server) ∨
  (a.serverIp.isEmpty = true ∧ (a.AsksServer → env.serverInit = true ∧ FirstOther server) ∧
    env.init = true ∧ (Failed host ∨ FirstOther host))

theorem caught_lost (a : Agent) (e : Error) :
    (∃ b, (a.caught e).1 = .ok b ∧ b.address.isEmpty = true) ↔ ∃ code, e = .dns code := by
  cases e with
  | dns code =>
    refine iff_of_true ⟨_, rfl, ?_⟩ ⟨code, rfl⟩
    rw [set_toAgent]
    rfl
  | other => simp [Agent.caught]

theorem refreshIp_lost (a : Agent) (start : Bool) :
    (∃ b, a.refreshIp start = .ok b ∧ b.address.isEmpty = true) ↔ a.address.isEmpty = true := by
  rw [← Ip.refresh_lost a.toAgent start]
  unfold Agent.refreshIp
  cases a.toAgent.refresh start <;> simp

theorem lost_iff_outcome (a : Agent) (env : RefreshEnv) :
    (∃ b, (a.refresh env).1 = .ok b ∧ b.address.isEmpty = true) ↔
      Failed (a.outcome env) ∨ FirstOther (a.outcome env) := by
  rw [refresh_spec]
  rcases ho : a.outcome env with e | (_ | ⟨r, rs⟩)
  · simpa using caught_lost a e
  · simp
  · have hfirst := firstOther_outcome ho
    rw [ho] at hfirst
    rw [or_iff_right not_failed_ok, hfirst]
    refine (refreshIp_lost _ env.start).trans ?_
    rw [set_toAgent]

theorem hostQuery_lost (a : Agent) (env : RefreshEnv) :
    Failed (a.hostQuery env) ∨ FirstOther (a.hostQuery env) ↔
      env.init = true ∧ (Failed (query a.hostname env.answer) ∨ FirstOther (query a.hostname env.answer)) := by
  unfold Agent.hostQuery
  split_ifs with hinit <;> simp [hinit]

theorem refresh_lost (a : Agent) (env : RefreshEnv) :
    (∃ b, (a.refresh env).1 = .ok b ∧ b.address.isEmpty = true) ↔ a.LosesAddress env := by
  rw [lost_iff_outcome]
  unfold Agent.LosesAddress Agent.outcome
  by_cases hasks : a.AsksServer
  · simp only [hasks, hasks.2, if_true, true_and, forall_const]
    by_cases hinit : env.serverInit = true
    · simp only [hinit, if_true, true_and]
      rcases hq : query (a.serverName.getD "") env.serverAnswer with e | (_ | ⟨r, rs⟩)
      · simp
      · simp
      · have hfirst := firstOther_cons hq
        rw [hq] at hfirst
        rw [hfirst, ← hostQuery_lost a env]
        by_cases hempty : r.addr.isEmpty = true <;> simp [hempty]
    · simp [hinit]
  · rw [if_neg hasks]
    by_cases hempty : a.serverIp.isEmpty = true
    · rw [if_pos hempty, hostQuery_lost a env]
      simp [hasks, hempty]
    · simp [hasks, hempty]

end UdjatNetwork.Dns
