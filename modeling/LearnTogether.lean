import LearnTogether.Base.Exec
import LearnTogether.Base.Refinement
import LearnTogether.Base.WrapSum
import LearnTogether.Base.WrapMultiples
import LearnTogether.Counter.ServerSteps
import LearnTogether.Counter.Answer
import LearnTogether.Counter.NodePointer
import LearnTogether.Counter.SnapshotRequests
import LearnTogether.Counter.Main
import LearnTogether.Group.Model
import LearnTogether.Group.Steps
import LearnTogether.Base.History
import LearnTogether.Group.Ledger
import LearnTogether.Group.Replica
import LearnTogether.Group.Linear
import LearnTogether.Group.Read
import LearnTogether.Group.Leadership
import LearnTogether.Group.Refusal
import LearnTogether.Group.AtomicCounter
import LearnTogether.Group.Refinement
import LearnTogether.Group.Terms
import LearnTogether.Group.Recovery
import LearnTogether.Group.Aborts
import LearnTogether.Group.Session
import LearnTogether.Group.Tickets
import LearnTogether.Client.Sender
import LearnTogether.Base.StaleWrites
import LearnTogether.Client.Threads
import LearnTogether.Client.System
import LearnTogether.Base.Shell
import LearnTogether.Base.ShellWords
import LearnTogether.Fio.Codec
import LearnTogether.Fio.Command
import LearnTogether.Base.Wire
import LearnTogether.Echo.Message
import LearnTogether.Echo.Service
import LearnTogether.Base.Ownership
import LearnTogether.Echo.Heap
import LearnTogether.Echo.HeapSteps
import LearnTogether.Echo.HeapParse
import LearnTogether.Echo.HeapRuns
import LearnTogether.Base.LockedCounter
import LearnTogether.Echo.Test
