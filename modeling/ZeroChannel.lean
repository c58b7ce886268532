import ZeroChannel.Concur.Prog
import ZeroChannel.Concur.Rely
import ZeroChannel.Concur.Reach
import ZeroChannel.Concur.Pool
import ZeroChannel.Concur.Trace
import ZeroChannel.Concur.Window
import ZeroChannel.Concur.Lap
import ZeroChannel.Concur.Bound
import ZeroChannel.Concur.Despite
import ZeroChannel.Concur.Refine
import ZeroChannel.Concur.Turn
import ZeroChannel.Metadata
import ZeroChannel.Segment
import ZeroChannel.Writer
import ZeroChannel.Reader
import ZeroChannel.Channel
import ZeroChannel.Session
import ZeroChannel.Life
import ZeroChannel.Log
import ZeroChannel.Queue
import ZeroChannel.Lifecycle
import ZeroChannel.Handover
import ZeroChannel.Roles
import ZeroChannel.Region
import ZeroChannel.Proof.Locate
import ZeroChannel.Proof.Ops
import ZeroChannel.Proof.Pin
import ZeroChannel.Proof.Seqlock
import ZeroChannel.Proof.WriteAlone
import ZeroChannel.Proof.ReadAlone
import ZeroChannel.Proof.Calls
import ZeroChannel.Proof.WriteHandles
import ZeroChannel.Proof.Ring
import ZeroChannel.Proof.BoundedLog
import ZeroChannel.Proof.Marks
import ZeroChannel.Proof.Resume
import ZeroChannel.Proof.Numbers
import ZeroChannel.Proof.Handover
import ZeroChannel.Proof.Roles
import ZeroChannel.Proof.Layout
import ZeroChannel.Proof.Decode
import ZeroChannel.Proof.Refine
import ZeroChannel.Proof.Represents
import ZeroChannel.Proof.Bytes
import ZeroChannel.Proof.Queue
import ZeroChannel.Proof.Minimal
import ZeroChannel.Buffer
import ZeroChannel.Proof.Buffer
import ZeroChannel.Latch
import ZeroChannel.Proof.Latch
import ZeroChannel.Proof.Lifecycle
import ZeroChannel.Succession
import ZeroChannel.Proof.Succession
import ZeroChannel.World
import ZeroChannel.Open
import ZeroChannel.Proof.OpenAlone
import ZeroChannel.Proof.Inside
import ZeroChannel.Proof.Rejected
import ZeroChannel.Generations
import ZeroChannel.Proof.Generations
import ZeroChannel.System
import ZeroChannel.Proof.Deed
import ZeroChannel.Proof.OpenAmong
import ZeroChannel.Proof.Exclusive
import ZeroChannel.Proof.Arbitrated
import ZeroChannel.Proof.LockFree
import ZeroChannel.Proof.Advertised
import ZeroChannel.Proof.Watermark
import ZeroChannel.Proof.Progress
import ZeroChannel.Proof.Retention
import ZeroChannel.Proof.Gaps
import ZeroChannel.Proof.Abandoned
import ZeroChannel.Signals
import ZeroChannel.Proof.Stale
import ZeroChannel.PyHandle
import ZeroChannel.Proof.PyHandle
import ZeroChannel.Service
import ZeroChannel.Directory
import ZeroChannel.Proof.Serve
import ZeroChannel.Proof.Lines
import ZeroChannel.Proof.Connect
import ZeroChannel.Proof.Directory
import ZeroChannel.Proof.Holding
