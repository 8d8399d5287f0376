import UdjatNetwork.Udjat

/-! # `ICMP::Response` -/

namespace UdjatNetwork.Icmp

inductive Response where
  | invalid
  | echoReply
  | destinationUnreachable
  | timeExceeded
  | timeout
  | networkUnreachable
deriving Repr, DecidableEq

/-- `names`, with the response that each index stands for. -/
def names : List (String × Response) :=
  [("invalid", .invalid), ("echo-reply", .echoReply), ("destination-unreachable", .destinationUnreachable),
   ("time-exceeded", .timeExceeded), ("timeout", .timeout), ("network-unreachable", .networkUnreachable)]

/-- `ResponseFactory`; none, when it throws. -/
def responseFactory (name : String) : Option Response :=
  (names.find? fun n => strcasecmp name n.1).map (·.2)

end UdjatNetwork.Icmp
