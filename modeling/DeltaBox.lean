import DeltaBox.Actions.Edits
import DeltaBox.Actions.OnlyAsked
import DeltaBox.Adapters.SearchOrder
import DeltaBox.Adapters.SpanOrder
import DeltaBox.Adaptive.Controller
import DeltaBox.Adaptive.PrevImages
import DeltaBox.Async.Durable
import DeltaBox.Async.Resources
import DeltaBox.Async.Writer
import DeltaBox.Completion.ActionJson
import DeltaBox.Completion.Repaired
import DeltaBox.Completion.Strict
import DeltaBox.Control.Addressee
import DeltaBox.Control.Fifo
import DeltaBox.Control.Readers
import DeltaBox.Control.Replies
import DeltaBox.Convert.Accept
import DeltaBox.Convert.Legacy
import DeltaBox.Convert.LegacyStates
import DeltaBox.Convert.Tree
import DeltaBox.Convert.TreeStates
import DeltaBox.Criu.Exact
import DeltaBox.Criu.Pagemap
import DeltaBox.Driver.Accepted
import DeltaBox.Driver.Rebuild
import DeltaBox.Driver.Replay
import DeltaBox.Eval.Rank
import DeltaBox.Gc.Collect
import DeltaBox.Gc.Retention
import DeltaBox.Host.Clients
import DeltaBox.Host.OwnReply
import DeltaBox.Index.Edits
import DeltaBox.Index.Fresh
import DeltaBox.Index.Isolation
import DeltaBox.Index.Mirror
import DeltaBox.Index.Plain
import DeltaBox.Index.Refinement
import DeltaBox.Index.Sidecar
import DeltaBox.Index.StaysFresh
import DeltaBox.Index.Table
import DeltaBox.Index.Worker
import DeltaBox.Launcher.Sealed
import DeltaBox.Launcher.Trust
import DeltaBox.LazyPages.Places
import DeltaBox.LazyPages.Prestart
import DeltaBox.LazyPages.Waiting
import DeltaBox.Legacy.Chain
import DeltaBox.Legacy.Checkpoint
import DeltaBox.Legacy.Cut
import DeltaBox.Legacy.Files
import DeltaBox.Legacy.Forks
import DeltaBox.Legacy.Memory
import DeltaBox.Legacy.Parent
import DeltaBox.Lib.Acl
import DeltaBox.Lib.Bash
import DeltaBox.Lib.Below
import DeltaBox.Lib.Cells
import DeltaBox.Lib.Dict
import DeltaBox.Lib.Disk
import DeltaBox.Lib.Dumps
import DeltaBox.Lib.Faults
import DeltaBox.Lib.Files
import DeltaBox.Lib.Flock
import DeltaBox.Lib.Frame
import DeltaBox.Lib.Heap
import DeltaBox.Lib.Intervals
import DeltaBox.Lib.Json
import DeltaBox.Lib.Layer
import DeltaBox.Lib.Lines
import DeltaBox.Lib.Links
import DeltaBox.Lib.Machine
import DeltaBox.Lib.Numerals
import DeltaBox.Lib.Pidfd
import DeltaBox.Lib.Posix
import DeltaBox.Lib.ProcGroup
import DeltaBox.Lib.Program
import DeltaBox.Lib.Schedule
import DeltaBox.Lib.Shell
import DeltaBox.Lib.Stable
import DeltaBox.Lib.Strings
import DeltaBox.Lib.Sweep
import DeltaBox.Lib.Text
import DeltaBox.Lib.Truncated
import DeltaBox.Lib.Utf8
import DeltaBox.Lib.Varint
import DeltaBox.Lib.Walk
import DeltaBox.Lib.Worklist
import DeltaBox.Lifecycle.Abort
import DeltaBox.Lifecycle.DumpPool
import DeltaBox.Lifecycle.ResourceFacts
import DeltaBox.Lifecycle.Resources
import DeltaBox.Lifecycle.ResourcesSafe
import DeltaBox.Lifecycle.ResourcesSettled
import DeltaBox.Npd.Answers
import DeltaBox.Npd.Daemon
import DeltaBox.Overlay.Coupled
import DeltaBox.Overlay.Covered
import DeltaBox.Overlay.Invariant
import DeltaBox.Overlay.Lightweight
import DeltaBox.Overlay.LockStep
import DeltaBox.Overlay.Registry
import DeltaBox.Overlay.Rollback
import DeltaBox.Overlay.RootOverlay
import DeltaBox.Overlay.RootSandbox
import DeltaBox.Overlay.Sandbox
import DeltaBox.Overlay.Sink
import DeltaBox.Overlay.SwitchFault
import DeltaBox.Owned.Children
import DeltaBox.Owned.Entries
import DeltaBox.Owned.Live
import DeltaBox.Owned.Safe
import DeltaBox.Patch.Clean
import DeltaBox.Patch.CleanHunks
import DeltaBox.Patch.Held
import DeltaBox.Patch.Kept
import DeltaBox.Patch.NoIndexHunks
import DeltaBox.Patch.Paths
import DeltaBox.Patch.Sections
import DeltaBox.Paths.Resolvers
import DeltaBox.Paths.StaysInside
import DeltaBox.Phases.Partition
import DeltaBox.Pinned.GivesBack
import DeltaBox.Pinned.Measurement
import DeltaBox.Prewarm.Journal
import DeltaBox.Prewarm.Populate
import DeltaBox.Prewarm.Ranges
import DeltaBox.Provenance.Cache
import DeltaBox.Provenance.NeverStale
import DeltaBox.Ram.Capacity
import DeltaBox.Reap.Books
import DeltaBox.Reap.Execute
import DeltaBox.Reap.Jobs
import DeltaBox.Repl.Newlines
import DeltaBox.Replay.Agent
import DeltaBox.Replay.Branch
import DeltaBox.Replay.Frames
import DeltaBox.Restamp.Cache
import DeltaBox.Restamp.Copies
import DeltaBox.Restore.Action
import DeltaBox.Restore.Consistent
import DeltaBox.Restore.KillSet
import DeltaBox.Restore.Preflight
import DeltaBox.Restore.Returns
import DeltaBox.Restore.World
import DeltaBox.Review.Binding
import DeltaBox.Review.WorkQueue
import DeltaBox.Search.AgentMcts
import DeltaBox.Search.HostMcts
import DeltaBox.Search.OwnCheckpoint
import DeltaBox.Search.Sandbox
import DeltaBox.Search.UctTree
import DeltaBox.Semantic.Lightweight
import DeltaBox.Semantic.Parser
import DeltaBox.Server.Requests
import DeltaBox.Server.Whole
import DeltaBox.Session.Exact
import DeltaBox.Session.Teardown
import DeltaBox.Shell.Channel
import DeltaBox.Shell.OwnResponse
import DeltaBox.Storage.Kept
import DeltaBox.Storage.Latest
import DeltaBox.Storage.Locks
import DeltaBox.Suite.Attempts
import DeltaBox.Suite.Resume
import DeltaBox.Verdict.Digest
import DeltaBox.Verdict.Run
import DeltaBox.Verdict.Verified
import DeltaBox.Wait.ProcessExit
