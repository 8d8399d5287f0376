import UdjatNetwork.NetLink.Controller
import UdjatNetwork.NetLink.Message

/-! # Netlink events

`handle_event` of the netlink controller (`os/linux/netlink.cc`), as the list of what it does with the messages
of a datagram. The macros of `linux/netlink.h` compute in 32 bits there, and without a sign. -/

namespace UdjatNetwork.NetLink
open Bytes Records

def EAGAIN : Nat := 11

def sizeofBuf : Nat := 4096

/-- The buffer after `recvmsg`: `status` bytes of a datagram, and behind them what stood there before. -/
structure Received where
  buf : List UInt8
  status : Nat
  length_buf : buf.length = sizeofBuf
  status_le : status ≤ sizeofBuf

/-- `handle_event` examines the header at an offset, gives a message to a listener, or catches an exception. -/
inductive Event where
  | header (off : Nat)
  | message (l : Listener) (off len : Nat)
  | caught (l : Listener)
deriving Repr, DecidableEq

/-- `NLMSG_ALIGN`. -/
def nlmsgAlign (len : BitVec 32) : BitVec 32 := (len + 3) &&& ~~~3

/-- The types of the messages that end the loop. -/
def finalTypes : List Nat := [NLMSG_DONE, NLMSG_ERROR]

namespace Controller

/-- The loop over the listeners; `threw` tells which calls of a method leave by an exception. -/
def deliver (s : Controller) (threw : Listener → Nat → Bool) (type off len : Nat) : List Event :=
  s.listeners.flatMap fun l =>
    if l.message.toNat = type then .message l off len :: (if threw l off then [.caught l] else []) else []

/-- The loop over the messages, from the offset on and with the length that is left, as the cast to `unsigned int`
    sees it; no end, when it takes more than `fuel` rounds. -/
def messages (s : Controller) (threw : Listener → Nat → Bool) (buf : List UInt8) :
    Nat → Nat → BitVec 32 → List Event × Option (Outcome Unit)
  | 0, _, _ => ([], none)
  | fuel + 1, off, status =>
    if status.toNat < nlmsghdr.header then ([], some (.ok ()))
    -- The header is read even where the buffer does not hold it.
    else if buf.length < off + nlmsghdr.header then ([.header off], some .undefined)
    else
      let len := BitVec.ofNat 32 (nlmsghdr.size (buf.drop off))
      let type := field (buf.drop off) 4 2
      if len.toNat < nlmsghdr.header ∨ status.toNat < len.toNat then ([.header off], some (.ok ()))
      else if type ∈ finalTypes then ([.header off], some (.ok ()))
      else
        let rest := messages s threw buf fuel (off + (nlmsgAlign len).toNat) (status - nlmsgAlign len)
        (.header off :: (s.deliver threw type off len.toNat ++ rest.1), rest.2)

/-- `handle_event`, with the error of `recvmsg` or what it received. -/
def handleEvent (s : Controller) (threw : Listener → Nat → Bool) (fuel : Nat) :
    Except Nat Received → List Event × Option (Outcome Unit)
  | .error errno => ([], some (if errno = EAGAIN then .ok () else .threw ()))
  | .ok r => s.messages threw r.buf fuel 0 (BitVec.ofNat 32 r.status)

end Controller
end UdjatNetwork.NetLink
