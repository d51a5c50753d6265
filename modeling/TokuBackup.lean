import TokuBackup.Lib.Machine
import TokuBackup.Lib.Counted
import TokuBackup.Kernel.Content
import TokuBackup.RangeLocks
import TokuBackup.Convergence.Mirror
import TokuBackup.Convergence.Model
import TokuBackup.Convergence.Invariant
import TokuBackup.Convergence.ThreadSteps
import TokuBackup.Convergence.FdSteps
import TokuBackup.Convergence.CopierSteps
import TokuBackup.Convergence.Main
import TokuBackup.Convergence.Truncation
import TokuBackup.Kernel.Path
import TokuBackup.Lib.Chain
import TokuBackup.Lib.Result
import TokuBackup.Table.FileHashTable
import TokuBackup.Table.Operations
import TokuBackup.Table.Sound
import TokuBackup.Table.Transient
import TokuBackup.Kernel.Components
import TokuBackup.DirectorySet
import TokuBackup.PathAgreement
import TokuBackup.Lifecycle.Model
import TokuBackup.Lifecycle.Base
import TokuBackup.Lifecycle.BaseSteps
import TokuBackup.Lifecycle.Frames
import TokuBackup.Lifecycle.Counts
import TokuBackup.Lifecycle.Users
import TokuBackup.Lifecycle.NewDestinations
import TokuBackup.Lifecycle.Sessions
import TokuBackup.Lifecycle.Names
import TokuBackup.Lifecycle.PathReuse
import TokuBackup.Lifecycle.CurrentNames
import TokuBackup.Lifecycle.OpenRace
import TokuBackup.Lifecycle.ResolvedNames
import TokuBackup.Lifecycle.Prepared
import TokuBackup.Lifecycle.Exclusion
import TokuBackup.Lifecycle.Unlinked
import TokuBackup.DoBackup.Calls
import TokuBackup.OpenPath
import TokuBackup.DoBackup.Model
import TokuBackup.DoBackup.Accounts
import TokuBackup.DoBackup.Main
import TokuBackup.Lib.Script
import TokuBackup.Requests.Model
import TokuBackup.Requests.Rejected
import TokuBackup.Lib.Prog
import TokuBackup.Lib.Hazard
import TokuBackup.Interpose.Calls
import TokuBackup.Interpose.Model
import TokuBackup.Interpose.AfterSession
import TokuBackup.Interpose.Manager
import TokuBackup.Interpose.Reported
import TokuBackup.Interpose.ReportedCalls
import TokuBackup.Interpose.TransparentRuns
import TokuBackup.Interpose.SparedCalls
import TokuBackup.Interpose.Aside
import TokuBackup.Interpose.Transparent
import TokuBackup.Interpose.TransparentCalls
import TokuBackup.Interpose.Spared
import TokuBackup.Lib.Worklist
import TokuBackup.Kernel.FileSystem
import TokuBackup.Copier.Model
import TokuBackup.Copier.Tree
import TokuBackup.Copier.Invariant
import TokuBackup.Copier.Mirrored
import TokuBackup.Copier.Steps
import TokuBackup.Copier.Main
import TokuBackup.Interpose.ShortWrites
import TokuBackup.Interpose.CapturedWrites
import TokuBackup.Interpose.Offsets
import TokuBackup.Interpose.TruncateByPath
import TokuBackup.Table.RenameFailures
import TokuBackup.DoBackup.SourceFd
import TokuBackup.Lifecycle.CopyOffsets
import TokuBackup.Lib.LockOrder
import TokuBackup.Interpose.Inner
import TokuBackup.Locking.Model
import TokuBackup.Locking.Calls
import TokuBackup.Locking.BackupThread
import TokuBackup.Locking.Deadlock
import TokuBackup.SourceMembership
import TokuBackup.DirectorySet.Strings
import TokuBackup.DirectorySet.CreateBackup
import TokuBackup.Interpose.MadeDirectories
import TokuBackup.DoBackup.Validation
import TokuBackup.BackupThread.Model
import TokuBackup.BackupThread.Abort
import TokuBackup.BackupThread.Vanishing
import TokuBackup.Lifecycle.MissingDestinations
import TokuBackup.TodoList
import TokuBackup.Kernel.LinkTree
import TokuBackup.Interpose.LinkedEntries
import TokuBackup.Kernel.Rename
import TokuBackup.Moves.Model
import TokuBackup.Moves.Steps
import TokuBackup.Moves.Table
import TokuBackup.Moves.Destinations
import TokuBackup.Moves.Ahead
import TokuBackup.Moves.Copies
import TokuBackup.Moves.Crossing
import TokuBackup.Moves.Race
import TokuBackup.Moves.Boundary
import TokuBackup.Moves.Within
import TokuBackup.RangeLocks.Threads
import TokuBackup.Lib.Simulation
import TokuBackup.Table.Refinement
import TokuBackup.Subdirectories
import TokuBackup.Progress.Tree
import TokuBackup.Progress.Model
import TokuBackup.Progress.Account
import TokuBackup.Progress.Polls
import TokuBackup.Progress.Main
import TokuBackup.HotCopy.Model
import TokuBackup.HotCopy.Main
import TokuBackup.HotCopy.Completion
import TokuBackup.CopyFullPath
import TokuBackup.Throttle.Model
import TokuBackup.Throttle.Main
import TokuBackup.Lib.Linearization
import TokuBackup.RangeLocks.Atomic
import TokuBackup.Fmap
import TokuBackup.Lib.Mix
import TokuBackup.Table.Murmur
import TokuBackup.Lib.Amortized
import TokuBackup.Table.Resize
import TokuBackup.RealSyscalls
import TokuBackup.CopiesApart
import TokuBackup.Table.Destructor
import TokuBackup.Locking.Waits
import TokuBackup.BackupThread.Cleanup
