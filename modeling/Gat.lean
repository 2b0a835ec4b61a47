import Gat.Soundness.ReshapeRecovery
import Gat.Proofs.ReshapeSteps
import Gat.Model.ReshapeSteps
import Gat.ToMathlib.Durable
import Gat.Soundness.LockHistory
import Gat.Soundness.Gc
import Gat.Proofs.Gc
import Gat.Soundness.ExcludeSync
import Gat.Proofs.ExcludeSync
import Gat.Model.ExcludeSync
import Gat.Soundness.ExcludeBody
import Gat.ToMathlib.GitIgnore
import Gat.Model.ExcludeBody
import Gat.Soundness.Interpolation
import Gat.Model.Interpolate
import Gat.Model.Template
import Gat.Soundness.FileInventory
import Gat.Model.FileInventory
import Gat.Soundness.WorktreeMove
import Gat.Model.WorktreeMove
import Gat.Soundness.WorktreePrune
import Gat.Model.WorktreeMutation
import Gat.Soundness.LockEncoding
import Gat.Soundness.GlobPruning
import Gat.Model.Globs
import Gat.Soundness.StateBatch
import Gat.Model.StateBatch
import Gat.Soundness.LockKernels
import Gat.Proofs.LockKernels
import Gat.Model.LockKernels
import Gat.ToMathlib.Registers
import Gat.Soundness.ManagedBlock
import Gat.Proofs.ManagedBlock
import Gat.Model.ManagedBlock
import Gat.ToMathlib.SplitInclusive
import Gat.Soundness.LexicalNormalization
import Gat.Model.LexicalScan
import Gat.Model.ShardIdentity
import Gat.Soundness.ShardIdentity
import Gat.Soundness.Exclusions
import Gat.Model.Excludes
import Gat.Soundness.MountValidation
import Gat.Soundness.LockValidation
import Gat.Soundness.DirectoryConflict
import Gat.Proofs.CacheSweep
import Gat.Proofs.LockHistory
import Gat.Model.Gc
import Gat.Model.CacheSweep
import Gat.Model.LockHistory
import Gat.Soundness.CacheVerification
import Gat.Proofs.CacheVerification
import Gat.Model.CacheVerification
import Gat.Soundness.PublishError
import Gat.Soundness.Publish
import Gat.Proofs.PublishScan
import Gat.Proofs.PublishRun
import Gat.Proofs.Publish
import Gat.Model.Publish
import Gat.Soundness.Presence
import Gat.Proofs.Presence
import Gat.Model.Presence
import Gat.ToMathlib.RoundRobin
import Gat.Soundness.TransferWindow
import Gat.Proofs.RemoteExecutor
import Gat.Model.RemoteExecutor
import Gat.Soundness.Admission
import Gat.Proofs.Admission
import Gat.Model.Admission
import Gat.Soundness.ShardedReading
import Gat.Soundness.PathPolicy
import Gat.Proofs.Config
import Gat.Proofs.PathPolicy
import Gat.Model.Config
import Gat.Model.PathPolicy
import Gat.Soundness.SyncTrusted
import Gat.Model.SyncTrusted
import Gat.Proofs.SyncDirty
import Gat.Model.SyncDirty
import Gat.Soundness.Selection
import Gat.Proofs.DesiredRows
import Gat.Proofs.DesiredQuery
import Gat.Model.DesiredRows
import Gat.Model.DesiredQuery
import Gat.Model.Selection
import Gat.ToMathlib.HalfOpenRanges
import Gat.Soundness.DesiredIdentity
import Gat.Soundness.DesiredRefresh
import Gat.Proofs.DesiredRefresh
import Gat.Proofs.DirectoryConflict
import Gat.Proofs.ShardCatalog
import Gat.Model.DesiredRefresh
import Gat.ToMathlib.KeyedFold
import Gat.Model.ShardCatalog
import Gat.Soundness.SparsePublication
import Gat.Proofs.LockMirror
import Gat.Proofs.SparsePublish
import Gat.Model.SparsePublish
import Gat.Soundness.Publication
import Gat.Proofs.Reshape
import Gat.Model.Reshape
import Gat.Proofs.LockTree
import Gat.Model.LockTree
import Gat.Soundness.Movement
import Gat.Proofs.Movement
import Gat.Proofs.StateStore
import Gat.Model.Movement
import Gat.Model.StateStore
import Gat.Proofs.LexicalTree
import Gat.ToMathlib.Subtree
import Gat.Soundness.SyncConvergence
import Gat.Soundness.SyncSafety
import Gat.Proofs.SyncTable
import Gat.Proofs.SyncRun
import Gat.Proofs.SyncExecute
import Gat.Proofs.SyncLedger
import Gat.Model.SyncLedger
import Gat.Model.SyncExecute
import Gat.Soundness.SyncPlanner
import Gat.Proofs.SyncPlan
import Gat.Proofs.SyncMerge
import Gat.ToMathlib.Fallible
import Gat.Model.Sync
import Gat.Model.Worktree
import Gat.Model.SyncPlan
import Gat.Soundness.ShardedMerge
import Gat.Proofs.MergeDriver
import Gat.Proofs.LockStore
import Gat.Proofs.LockValidate
import Gat.Model.MergeDriver
import Gat.Soundness.ThreeWayMerge
import Gat.Proofs.LockMerge
import Gat.ToMathlib.SortedMap
import Gat.Soundness.LockRoundTrip
import Gat.Proofs.LockCodec
import Gat.Soundness.LockFormat
import Gat.Model.LockCodec
import Gat.Proofs.LockReader
import Gat.Proofs.LockRecord
import Gat.Proofs.EscapedPath
import Gat.Proofs.LexicalPath
import Gat.Proofs.Oid
import Gat.Proofs.Text
import Gat.Model.LockFormat
import Gat.Model.LockReader
import Gat.Model.LexicalPath
import Gat.ToMathlib.Utf8
import Gat.ToMathlib.AncestorFree
