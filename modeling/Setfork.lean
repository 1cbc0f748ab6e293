import Setfork.AuthoredDoors
import Setfork.CanonMirror
import Setfork.Foundation.FirstSeen
import Setfork.PathDoors
import Setfork.Carryover
import Setfork.PushedTexts
import Setfork.Reproject
import Setfork.PushBack
import Setfork.Foundation.Refs
import Setfork.Repository
import Setfork.History
import Setfork.Alignment
import Setfork.AppendOnly
import Setfork.WebVersion
import Setfork.CarriedTree
import Setfork.Healing
import Setfork.Foundation.Runs
import Setfork.Push
import Setfork.Branches
import Setfork.Service
import Setfork.Received
import Setfork.TagRuns
import Setfork.FailedWrites
import Setfork.PushedVersions
import Setfork.ConcurrentMain
import Setfork.ResolvedMerges
import Setfork.Foundation.Lock
import Setfork.Writers
import Setfork.ConcurrentWriters
import Setfork.Wire
import Setfork.Suggestions
import Setfork.RepoSweep
import Setfork.Convergence
import Setfork.LostTags
import Setfork.PlacedFiles
import Setfork.MainFormat
import Setfork.MagicPushes
import Setfork.ResolvedTree
import Setfork.Coalescing
import Setfork.PublishedCanon
import Setfork.SerializedCalls
import Setfork.Foundation.JsonSchema
import Setfork.StrictCanon
import Setfork.StrictParse
import Setfork.Convert
import Setfork.ShownCanon
import Setfork.EditorRoundTrip
import Setfork.BranchMarks
import Setfork.StarCounts
import Setfork.Numbering
import Setfork.CanonReadme
import Setfork.CodeBlocks
import Setfork.AuthoredFiles
import Setfork.AuthoredWrites
import Setfork.MagicAuthors
import Setfork.RepeatedMerges
import Setfork.EmptyRefs
import Setfork.ContentCheck
import Setfork.Foundation.Search
import Setfork.Foundation.SlidingWindow
import Setfork.LegalRefs
import Setfork.RateLimit
import Setfork.Redaction
import Setfork.VersionShas
import Setfork.Foundation.GitPush
import Setfork.Foundation.RefMoves
import Setfork.Mirror
import Setfork.MirrorRuns
import Setfork.Foundation.OrderedLocks
import Setfork.GuardedCalls
import Setfork.DroppedCalls
import Setfork.BranchViews
import Setfork.Foundation.Pipes
import Setfork.GitChild
import Setfork.SavedVersions
import Setfork.GatedCalls
import Setfork.LostRepository
