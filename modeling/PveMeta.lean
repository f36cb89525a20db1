import PveMeta.Lib.Assoc
import PveMeta.Lib.Text
import PveMeta.Lib.Except
import PveMeta.Lib.Decimal
import PveMeta.Lib.Log
import PveMeta.Lib.Tally
import PveMeta.Lib.Delimited
import PveMeta.Lib.Scope
import PveMeta.Lib.Sorting
import PveMeta.Value
import PveMeta.Path
import PveMeta.Error
import PveMeta.Model
import PveMeta.Deps
import PveMeta.Format
import PveMeta.Patch
import PveMeta.View
import PveMeta.Shape
import PveMeta.Registry
import PveMeta.Wire
import PveMeta.Store
import PveMeta.Layers
import PveMeta.Version
import PveMeta.Api
import PveMeta.Perl
import PveMeta.Backup
import PveMeta.Lifecycle
import PveMeta.Sample
import PveMeta.Theorems.ValueEq
import PveMeta.Theorems.Subtree
import PveMeta.Theorems.WellFormed
import PveMeta.Theorems.Exact
import PveMeta.Theorems.Touched
import PveMeta.Theorems.Lens
import PveMeta.Theorems.KeepComments
import PveMeta.Theorems.DryRun
import PveMeta.Theorems.Ids
import PveMeta.Theorems.RoundTrip
import PveMeta.Theorems.NewGuest
import PveMeta.Theorems.Notes
import PveMeta.Theorems.Copies
import PveMeta.Theorems.Import
import PveMeta.Theorems.Export
import PveMeta.Theorems.Markers
import PveMeta.Theorems.Restore
import PveMeta.Request
import PveMeta.History
import PveMeta.Clients
import PveMeta.Creation
import PveMeta.Incarnations
import PveMeta.Panel
import PveMeta.Theorems.Places
import PveMeta.Theorems.Reads
import PveMeta.Theorems.Writes
import PveMeta.Theorems.Frame
import PveMeta.Theorems.Digests
import PveMeta.Theorems.Damage
import PveMeta.Theorems.Invariant
import PveMeta.Theorems.Rollback
import PveMeta.Theorems.FileNames
import PveMeta.Theorems.KeptNotes
import PveMeta.Theorems.WriteBack
import PveMeta.Theorems.AddedNotes
import PveMeta.Theorems.Dialect
import PveMeta.Theorems.Walk
import PveMeta.Theorems.Deletes
import PveMeta.Theorems.Sharp
import PveMeta.Theorems.MergeDiff
import PveMeta.Theorems.Gate
import PveMeta.Theorems.Merges
import PveMeta.Theorems.Reordered
import PveMeta.Theorems.MergeNulls
import PveMeta.Theorems.Rewrites
import PveMeta.Theorems.Clients
import PveMeta.Theorems.LostUpdates
import PveMeta.Theorems.Inherit
import PveMeta.Theorems.Listing
import PveMeta.Theorems.Shapes
import PveMeta.Theorems.SchemaIndex
import PveMeta.Theorems.Shadowing
import PveMeta.Theorems.Findings
import PveMeta.Theorems.Comparisons
import PveMeta.Theorems.Layers
import PveMeta.Theorems.ThroughPerl
import PveMeta.Theorems.Editor
import PveMeta.Theorems.Prefixes
import PveMeta.Theorems.Version
import PveMeta.Theorems.Statuses
import PveMeta.Theorems.Panel
import PveMeta.Theorems.Conflicts
import PveMeta.Theorems.ListWrites
import PveMeta.ManagedPatch
import PveMeta.Theorems.ManagedPatch
import PveMeta.Lib.SortedMap
import PveMeta.Guest.Path
import PveMeta.Guest.Entry
import PveMeta.Guest.Manifest
import PveMeta.Guest.Plan
import PveMeta.Guest.World
import PveMeta.Guest.Sync
import PveMeta.Theorems.GuestPaths
import PveMeta.Theorems.GuestManifest
import PveMeta.Theorems.GuestPlan
import PveMeta.Theorems.GuestCommit
import PveMeta.Theorems.GuestSources
import PveMeta.Theorems.GuestSync
import PveMeta.Lib.Json
import PveMeta.Guest.ManifestJson
import PveMeta.Guest.Sample
import PveMeta.Theorems.GuestKept
import PveMeta.Theorems.GuestWriters
import PveMeta.Theorems.SafeYaml
import PveMeta.Theorems.Defaults
import PveMeta.Theorems.Ranges
import PveMeta.Theorems.NoteLines
import PveMeta.Theorems.Stripping
import PveMeta.Theorems.Brackets
import PveMeta.Theorems.LeftBlocks
import PveMeta.Theorems.GuestJustified
import PveMeta.Theorems.Purge
import PveMeta.Theorems.GuestDecided
import PveMeta.Theorems.GuestCalm
import PveMeta.Theorems.GuestCarried
import PveMeta.Theorems.GuestConverge
import PveMeta.Theorems.GuestAlone
import PveMeta.Theorems.GuestOwn
import PveMeta.Theorems.GuestNames
import PveMeta.Theorems.GuestCollisions
import PveMeta.Theorems.GuestRows
import PveMeta.Theorems.GuestLockout
import PveMeta.PatchedTree
import PveMeta.Theorems.PatchRestored
import PveMeta.Theorems.PatchedTree
import PveMeta.Loader
import PveMeta.Theorems.Loader
import PveMeta.Buffer
import PveMeta.Theorems.Buffer
import PveMeta.Guest.Daemon
import PveMeta.Theorems.GuestCache
import PveMeta.Guest.Cluster
import PveMeta.Theorems.GuestWatched
import PveMeta.Lib.Gregorian
import PveMeta.Lib.MachineInt
import PveMeta.BackupTime
import PveMeta.Theorems.BackupTime
import PveMeta.Lib.Base64
import PveMeta.Guest.Script
import PveMeta.Theorems.GuestScript
import PveMeta.Theorems.PrefixNames
import PveMeta.Theorems.GuestRecords
import PveMeta.Lib.Reader
import PveMeta.Lib.Shell
import PveMeta.Lib.ShellReader
import PveMeta.Lib.ShellWords
import PveMeta.Lib.ShellRules
import PveMeta.Lib.Choices
import PveMeta.Guest.Machine
import PveMeta.Guest.Pct
import PveMeta.Guest.Functions
import PveMeta.Guest.Calls
import PveMeta.Theorems.GuestScriptRead
import PveMeta.Theorems.GuestShell
import PveMeta.Theorems.GuestShellOps
import PveMeta.Theorems.GuestShellSteps
import PveMeta.Theorems.GuestShellProbe
import PveMeta.Theorems.GuestShellRun
import PveMeta.Theorems.GuestPct
import PveMeta.Theorems.GuestAnswers
import PveMeta.Theorems.GuestPctCommit
import PveMeta.Theorems.GuestPctProbe
import PveMeta.Theorems.GuestPctRead
import PveMeta.Theorems.GuestPctSync
import PveMeta.Theorems.GuestChanges
import PveMeta.Theorems.GuestPeace
import PveMeta.Theorems.GuestPctRuns
import PveMeta.Theorems.GuestAgain
