import UdjatNetwork.Theorems.Busy
import UdjatNetwork.Theorems.Listener
import UdjatNetwork.Theorems.ErrorMessage
import UdjatNetwork.Theorems.Identifiers
import UdjatNetwork.Theorems.Reply
import UdjatNetwork.Theorems.Deadline
import UdjatNetwork.Theorems.Watcher
import UdjatNetwork.Theorems.Datagram
import UdjatNetwork.Theorems.Flags
import UdjatNetwork.Theorems.Existence
import UdjatNetwork.Theorems.Response
import UdjatNetwork.Theorems.Local
import UdjatNetwork.Theorems.DefaultGateway
import UdjatNetwork.Theorems.HostNode
import UdjatNetwork.Theorems.Changes
import UdjatNetwork.Theorems.Server
import UdjatNetwork.Theorems.StaleState
import UdjatNetwork.Theorems.Clock
import UdjatNetwork.Theorems.EmptyAddress
import UdjatNetwork.Theorems.SubnetText
import UdjatNetwork.Theorems.Answer
import UdjatNetwork.Theorems.Repeated
import UdjatNetwork.Theorems.AttributeOrder
import UdjatNetwork.Theorems.SplitDump
import UdjatNetwork.Theorems.OnePass
import UdjatNetwork.Theorems.Unreachable
import UdjatNetwork.Dns.WaitForHost
import UdjatNetwork.Theorems.Wait
import UdjatNetwork.Theorems.Action
import UdjatNetwork.Theorems.Computed
import UdjatNetwork.Theorems.EchoReply
import UdjatNetwork.Theorems.Delivery
import UdjatNetwork.Support.OnesComplement
import UdjatNetwork.Support.Prefix
import UdjatNetwork.Theorems.Checksum
import UdjatNetwork.Theorems.Prefixes
import UdjatNetwork.Theorems.LastResult
import UdjatNetwork.Theorems.Packets
import UdjatNetwork.Theorems.Devices
import UdjatNetwork.Theorems.HostPass
import UdjatNetwork.Theorems.HostNetwork
import UdjatNetwork.Theorems.Wire
import UdjatNetwork.Theorems.ReadBack
