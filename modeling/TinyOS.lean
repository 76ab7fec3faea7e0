import TinyOS.CondVar.OnRing
import TinyOS.CondVar.Wakeups
import TinyOS.Connection.Both
import TinyOS.Connection.Stranded
import TinyOS.KernelLock.Handoff
import TinyOS.Pipe.EndOfStream
import TinyOS.Pipe.Fifo
import TinyOS.Pipe.Waiting
import TinyOS.Proc.Adoption
import TinyOS.Proc.Assertions
import TinyOS.Proc.InfoLeaks
import TinyOS.Proc.Joins
import TinyOS.Proc.Recycle
import TinyOS.Proc.RingRuns
import TinyOS.Programs.Barrier
import TinyOS.Programs.Fragments
import TinyOS.Programs.OnCondVars
import TinyOS.Programs.Packing
import TinyOS.Programs.PipelineRuns
import TinyOS.Programs.RemoteRuns
import TinyOS.Programs.Symposium
import TinyOS.Rlist.Calls
import TinyOS.Rlist.Select
import TinyOS.Sched.Feedback
import TinyOS.Sched.Lifetime
import TinyOS.Sched.RingRuns
import TinyOS.Sched.TimedWaits
import TinyOS.Sched.Yields
import TinyOS.Sockets.Agreement
import TinyOS.Sockets.Bounds
import TinyOS.Sockets.Lookup
import TinyOS.Sockets.Peers
import TinyOS.Sockets.Ports
import TinyOS.Sockets.Release
import TinyOS.Sockets.Timeout
import TinyOS.Streams.Closing
import TinyOS.Streams.Reads
import TinyOS.Streams.Reserve
import TinyOS.UnitTesting.ParseIntList
