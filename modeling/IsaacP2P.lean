import IsaacP2P.Lib.AssocList
import IsaacP2P.Lib.LittleEndian
import IsaacP2P.Lib.Runs
import IsaacP2P.Lib.Alternation
import IsaacP2P.Lib.Streaming
import IsaacP2P.Lib.LengthPrefixed
import IsaacP2P.Lib.Ownership
import IsaacP2P.Relay.State
import IsaacP2P.Relay.Server
import IsaacP2P.Relay.Output
import IsaacP2P.Relay.Invariant
import IsaacP2P.Relay.Packets
import IsaacP2P.Relay.Handlers
import IsaacP2P.Relay.Sender
import IsaacP2P.Relay.Contract
import IsaacP2P.Relay.Containment
import IsaacP2P.Relay.Batch
import IsaacP2P.Relay.Intake
import IsaacP2P.Relay.Segmentation
import IsaacP2P.Relay.History
import IsaacP2P.Relay.Interest
import IsaacP2P.Relay.Descriptors
import IsaacP2P.Client.PacketQueue
import IsaacP2P.Client.State
import IsaacP2P.Client.Manager
import IsaacP2P.Client.Network
import IsaacP2P.Hook.Hook
import IsaacP2P.Client.Outgoing
import IsaacP2P.EndToEnd.Registration
import IsaacP2P.EndToEnd.Sizes
import IsaacP2P.Client.Acts
import IsaacP2P.Client.Receiving
import IsaacP2P.Hook.Buffers
import IsaacP2P.Hook.Registration
import IsaacP2P.Hook.Moves
import IsaacP2P.Hook.Links
import IsaacP2P.Client.Phases
import IsaacP2P.Client.Changes
import IsaacP2P.Client.Calls
import IsaacP2P.Client.Steps
import IsaacP2P.Client.Settled
import IsaacP2P.Client.PeerIDs
import IsaacP2P.Client.Sockets
import IsaacP2P.Client.CleanLinks
import IsaacP2P.Client.Reports
import IsaacP2P.Client.Causes
import IsaacP2P.Client.Zombies
import IsaacP2P.Client.Unread
import IsaacP2P.Client.Removals
import IsaacP2P.Lib.CappedDoubling
import IsaacP2P.Client.Parsing
import IsaacP2P.Client.Reading
import IsaacP2P.Client.Backoff
import IsaacP2P.Client.Counts
import IsaacP2P.Lib.Fifo
import IsaacP2P.Client.Arrivals
import IsaacP2P.Hook.Staging
import IsaacP2P.Hook.Lengths
import IsaacP2P.Hook.Config
import IsaacP2P.Client.Decoded
import IsaacP2P.EndToEnd.Delivery
import IsaacP2P.Client.ParseLoop
import IsaacP2P.Lib.FilledArray
import IsaacP2P.Relay.Arrays
import IsaacP2P.Relay.Capacity
import IsaacP2P.Lib.Exchange
import IsaacP2P.Relay.Drain
import IsaacP2P.Relay.Exchange
import IsaacP2P.Relay.Main
import IsaacP2P.Relay.Timing
import IsaacP2P.Hook.Injected
import IsaacP2P.Relay.Amplification
import IsaacP2P.Client.Wire
import IsaacP2P.EndToEnd.Direct
import IsaacP2P.EndToEnd.Network
import IsaacP2P.Hook.Unload
import IsaacP2P.EndToEnd.Lossless
