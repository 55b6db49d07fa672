import HummingbirdRpms.Lib.Exec
import HummingbirdRpms.Lib.Text
import HummingbirdRpms.Lib.Lines
import HummingbirdRpms.Lib.Regex
import HummingbirdRpms.Lib.RegexSplit
import HummingbirdRpms.Lib.Tree
import HummingbirdRpms.Lib.Url
import HummingbirdRpms.Lib.Register
import HummingbirdRpms.Lib.Trace
import HummingbirdRpms.Lib.Grep
import HummingbirdRpms.Lib.Binary64
import HummingbirdRpms.Lib.LineDiff
import HummingbirdRpms.Lib.RpmVersion
import HummingbirdRpms.Lib.Pieces
import HummingbirdRpms.Runtime
import HummingbirdRpms.FixedRef
import HummingbirdRpms.Repo
import HummingbirdRpms.Env
import HummingbirdRpms.Lookaside
import HummingbirdRpms.Gorget
import HummingbirdRpms.Sources
import HummingbirdRpms.PinRefresh
import HummingbirdRpms.GitLab
import HummingbirdRpms.Gates
import HummingbirdRpms.Merge
import HummingbirdRpms.Update
import HummingbirdRpms.Provenance
import HummingbirdRpms.Manual
import HummingbirdRpms.Admission
import HummingbirdRpms.Nevr
import HummingbirdRpms.CveVersions
import HummingbirdRpms.CveRanges
import HummingbirdRpms.CveOperators
import HummingbirdRpms.CveBranches
import HummingbirdRpms.CveCheck
import HummingbirdRpms.Resources
import HummingbirdRpms.Routing
import HummingbirdRpms.Components
import HummingbirdRpms.DiffCache
import HummingbirdRpms.Rebuild
import HummingbirdRpms.Releases
import HummingbirdRpms.ReleaseFields
import HummingbirdRpms.ReleaseEdit
import HummingbirdRpms.RebuildRelease
import HummingbirdRpms.Metadata
import HummingbirdRpms.Baseline
import HummingbirdRpms.UpstreamVersion
import HummingbirdRpms.Batch
import HummingbirdRpms.LocalChanges
import HummingbirdRpms.SyncMark
import HummingbirdRpms.MergePrecondition
import HummingbirdRpms.Archives
import HummingbirdRpms.History
import HummingbirdRpms.MultiMr
import HummingbirdRpms.Delivery
import HummingbirdRpms.LocalPolicy
import HummingbirdRpms.ReleaseOnly
import HummingbirdRpms.FlatYaml
import HummingbirdRpms.Rename
import HummingbirdRpms.PrivateProduct
import HummingbirdRpms.Autorelease
import HummingbirdRpms.FreshImport
import HummingbirdRpms.TagPages
import HummingbirdRpms.SourcesFile
import HummingbirdRpms.SourcesRuns
import HummingbirdRpms.DeclaredSources
import HummingbirdRpms.UniqueSources
import HummingbirdRpms.TrueHashes
import HummingbirdRpms.GorgetEnding
import HummingbirdRpms.UpstreamCheck
import HummingbirdRpms.PinRewrite
import HummingbirdRpms.BranchMoves
import HummingbirdRpms.KojiRetry
import HummingbirdRpms.OverridesLayout
import HummingbirdRpms.VersionOrder
import HummingbirdRpms.SpecNvr
import HummingbirdRpms.PulpSbom
import HummingbirdRpms.Lib.FirstSeen
import HummingbirdRpms.SbomSearch
import HummingbirdRpms.Lib.MacroExpansion
import HummingbirdRpms.SpecExpansion
import HummingbirdRpms.LocalNvr
import HummingbirdRpms.BlockMappings
import HummingbirdRpms.Lib.RegexLines
import HummingbirdRpms.PackageGuess
import HummingbirdRpms.KonfluxGate
import HummingbirdRpms.Comments
import HummingbirdRpms.NabGate
import HummingbirdRpms.TicketEvidence
import HummingbirdRpms.HumTask
import HummingbirdRpms.Lib.Worklist
import HummingbirdRpms.DiffBatches
import HummingbirdRpms.Lib.BlockScan
import HummingbirdRpms.LookasideLocation
import HummingbirdRpms.PublishedRpms
import HummingbirdRpms.RebuildBatch
import HummingbirdRpms.TestResults
import HummingbirdRpms.ComponentVersion
import HummingbirdRpms.CveVersionOrder
import HummingbirdRpms.ReviewStatus
import HummingbirdRpms.CveReleaseBump
import HummingbirdRpms.ReleaseBumpers
import HummingbirdRpms.WikiMono
import HummingbirdRpms.ReleaseDefs
import HummingbirdRpms.ReleaseErasure
import HummingbirdRpms.Sessions
import HummingbirdRpms.Independence
import HummingbirdRpms.Reruns
import HummingbirdRpms.Validated
import HummingbirdRpms.Investigation
import HummingbirdRpms.MrValidation
