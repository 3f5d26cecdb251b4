import Renamer.Engine.Execute
import Renamer.Presets.JsonText
import Renamer.Settings.JsonText
import Renamer.Store.MapFile
import Renamer.Store.Memory
import Renamer.Proofs.Construction
import Renamer.Proofs.Fresh
import Renamer.Proofs.Hierarchy
import Renamer.Proofs.Packages
import Renamer.Proofs.Partition
import Renamer.Proofs.Unification
import Renamer.Proofs.Frames
import Renamer.Proofs.Grouping
import Renamer.Proofs.Aliases
import Renamer.Proofs.Deciding
import Renamer.Proofs.Turns
import Renamer.Proofs.Overriding
import Renamer.Proofs.OwnNames
import Renamer.Proofs.Composition
import Renamer.Proofs.Titles
import Renamer.Proofs.Uniqueness
import Renamer.Proofs.Inheriting
import Renamer.Proofs.Paths
import Renamer.Proofs.PackageAliases
import Renamer.Proofs.Loading
import Renamer.Proofs.Emitted
import Renamer.Proofs.Passes
import Renamer.Proofs.PresetSteps
import Renamer.Proofs.Clashes
import Renamer.Proofs.Tables
import Renamer.Proofs.Consistency
import Renamer.Proofs.SavedPackages
import Renamer.Proofs.Endings
import Renamer.Proofs.Exports
import Renamer.Proofs.Growing
import Renamer.Proofs.Replay
import Renamer.Proofs.Heeding
import Renamer.Proofs.Writable
import Renamer.Proofs.Nesting
import Renamer.Proofs.RoundTrip
import Renamer.Proofs.Overlays
import Renamer.Proofs.Disks
import Renamer.Proofs.Reloading
import Renamer.Proofs.Stability
import Renamer.Proofs.Separators
import Renamer.Proofs.Choosing
import Renamer.Proofs.Counting
import Renamer.Proofs.Honouring
import Renamer.Proofs.LinkedTrees
import Renamer.Proofs.Queries
import Renamer.Proofs.Histories
import Renamer.Proofs.Agreement
import Renamer.Proofs.Rerunning
import Renamer.Proofs.Staleness
import Renamer.Proofs.Finishing
import Renamer.Proofs.Repeating
import Renamer.Proofs.Pointers
import Renamer.Proofs.Components
import Renamer.Proofs.Preorder
import Renamer.Proofs.Diamonds
import Renamer.Proofs.OneAlias
import Renamer.Proofs.Unrelated
import Renamer.Proofs.GrownTrees
import Renamer.Proofs.PointedTree
import Renamer.Proofs.PointedCalls
import Renamer.Proofs.PointedPaths
import Renamer.Proofs.TreeCalls
import Renamer.Proofs.PathTries
import Renamer.Proofs.DecidedApart
import Renamer.Proofs.Replacements
import Renamer.Proofs.WordOrder
import Renamer.Proofs.Requests
import Renamer.Proofs.Candidates
import Renamer.Proofs.Hints
import Renamer.Proofs.StoreCalls
import Renamer.Proofs.LetterBuffers
import Renamer.Proofs.NameCalls
import Renamer.Proofs.MemberLists
import Renamer.Proofs.ProgramCalls
import Renamer.Proofs.PointedRuns
import Renamer.Proofs.SideBySide
import Renamer.Proofs.ListedLookups
import Renamer.Proofs.Renamings
import Renamer.Proofs.PointedEngines
import Renamer.Proofs.PointedDeciding
import Renamer.Proofs.PointedBinding
import Renamer.Proofs.InRange
