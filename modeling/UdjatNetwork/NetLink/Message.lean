import UdjatNetwork.Support.Records

/-! # Netlink messages

Where `linux/netlink.h` and `linux/rtnetlink.h` put the length of a message and of an attribute, and the
values of theirs that the library uses. -/

namespace UdjatNetwork.NetLink
open Bytes Records

def NLMSG_ERROR : Nat := 2
def NLMSG_DONE : Nat := 3
def NLM_F_REQUEST : Nat := 0x1
def NLM_F_MULTI : Nat := 0x2
def NLM_F_DUMP : Nat := 0x300
def RTM_NEWLINK : Nat := 16
def RTM_DELLINK : Nat := 17
def RTM_NEWROUTE : Nat := 24
def RTM_GETROUTE : Nat := 26
def RT_TABLE_MAIN : Nat := 254
def RTA_OIF : Nat := 4
def RTA_GATEWAY : Nat := 5

/-- `struct nlmsghdr`; `NLMSG_OK` and `NLMSG_NEXT` walk over messages. -/
def nlmsghdr : Layout where
  header := 16
  size := fun bs => field bs 0 4
  header_pos := by decide
  size_take := fun _ => field_take (by decide)

/-- `struct rtattr`; `RTA_OK` and `RTA_NEXT` walk over attributes. -/
def rtattr : Layout where
  header := 4
  size := fun bs => field bs 0 2
  header_pos := by decide
  size_take := fun _ => field_take (by decide)

/-- `NLMSG_LENGTH(sizeof(struct rtmsg))`: the header and the 12 bytes of `struct rtmsg`. -/
def rtmsgLength : Nat := 28

end UdjatNetwork.NetLink
