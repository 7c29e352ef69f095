import UringWs.Foundation.ByteMemory
import UringWs.Foundation.ByteWord
import UringWs.Foundation.Checked
import UringWs.Foundation.ChunkQueue
import UringWs.Foundation.Duplex
import UringWs.Foundation.Layout
import UringWs.Foundation.Lookup
import UringWs.Foundation.Pipeline
import UringWs.Foundation.PrefixCode
import UringWs.Foundation.Region
import UringWs.Foundation.Response
import UringWs.Foundation.RingWindow
import UringWs.Foundation.Transition
import UringWs.Program.BufRing
import UringWs.Program.Cqe
import UringWs.Program.Net
import UringWs.Program.PingPong
import UringWs.Program.RawBufRing
import UringWs.Program.RawSqe
import UringWs.Program.ReadBuf
import UringWs.Program.Ring
import UringWs.Program.Sys
import UringWs.Program.UserData
import UringWs.System.Acceptance
import UringWs.System.BufferGroups
import UringWs.System.BufferLookup
import UringWs.System.BufferSafety
import UringWs.System.Calls
import UringWs.System.Channels
import UringWs.System.CompletionQueue
import UringWs.System.Custody
import UringWs.System.Delivery
import UringWs.System.Effects
import UringWs.System.EventLoop
import UringWs.System.Kernel
import UringWs.System.LoopSafety
import UringWs.System.MainLoop
import UringWs.System.Outgoing
import UringWs.System.PendingSends
import UringWs.System.Progress
import UringWs.System.PushGuard
import UringWs.System.RawBufferGroups
import UringWs.System.RawSubmission
import UringWs.System.ReadQueue
import UringWs.System.Rearm
import UringWs.System.RecvIntegrity
import UringWs.System.Response
import UringWs.System.Routing
import UringWs.System.SendOnce
import UringWs.System.SendOrder
import UringWs.System.SendTable
import UringWs.System.SlotHistory
import UringWs.System.Stops
import UringWs.System.StreamQueue
import UringWs.System.SubmissionQueue
import UringWs.System.Upgrade
import UringWs.System.WriteCompletion
