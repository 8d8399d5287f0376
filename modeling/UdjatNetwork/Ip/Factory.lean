import UdjatNetwork.Dns.Agent
import UdjatNetwork.Ip.Gateway

/-! # `IP::Agent::Factory` (`ip/factory.cc`) -/

namespace UdjatNetwork.Ip

/-- The agent for a `<network-host>`. -/
inductive Host where
  | ip (a : Agent)
  | gateway (g : Gateway)
  | dns (a : Dns.Agent)
deriving Repr, DecidableEq

namespace Host

/-- `Agent::Factory`; none, when it throws. -/
def factory (lib : Libudjat) (node : HostNode) : Option Host :=
  match lib.selectIndex (node.type.getD "host") ["host", "default-gateway"] with
  | some 0 => (Agent.ofNode lib node).map .ip
  | some 1 => (Gateway.ofNode lib node).map .gateway
  | _ =>
    if node.hostname.isSome then (Dns.Agent.ofNode lib node).map .dns
    else if node.ip.isSome then (Agent.ofNode lib node).map .ip
    else none

/-- The `StateFactory` of the agent; none, when it throws. -/
def stateFactory (lib : Libudjat) (host : Host) (node : StateNode) : Option Host :=
  match host with
  | .ip a => (a.stateFactory lib node).map .ip
  | .gateway g => (g.toAgent.stateFactory lib node).map fun a => .gateway { g with toAgent := a }
  | .dns a => (a.stateFactory lib node).map .dns

/-- The agent takes its states, in the order of the document; one that throws is left out. -/
def setup (lib : Libudjat) (host : Host) (nodes : List StateNode) : Host :=
  nodes.foldl (fun host node => (host.stateFactory lib node).getD host) host

end Host
end UdjatNetwork.Ip
