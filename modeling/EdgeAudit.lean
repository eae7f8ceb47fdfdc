import EdgeAudit.Main
import EdgeAudit.Proofs.CacheHistory
import EdgeAudit.Proofs.CacheInclusion
import EdgeAudit.Proofs.CachedOutcome
import EdgeAudit.Proofs.ConcurrentWrites
import EdgeAudit.Proofs.ConstructsInText
import EdgeAudit.Proofs.ConstructsInTree
import EdgeAudit.Proofs.Containment
import EdgeAudit.Proofs.Discovery
import EdgeAudit.Proofs.EscapedPattern
import EdgeAudit.Proofs.Exclusion
import EdgeAudit.Proofs.Failure
import EdgeAudit.Proofs.FileOutcome
import EdgeAudit.Proofs.FindingPlaces
import EdgeAudit.Proofs.FrameRows
import EdgeAudit.Proofs.HiddenNames
import EdgeAudit.Proofs.IgnoreDirectories
import EdgeAudit.Proofs.IgnoreRules
import EdgeAudit.Proofs.Interleaving
import EdgeAudit.Proofs.LineHits
import EdgeAudit.Proofs.LineOffsets
import EdgeAudit.Proofs.LineSkips
import EdgeAudit.Proofs.LinkResolution
import EdgeAudit.Proofs.Listing
import EdgeAudit.Proofs.NumberBounds
import EdgeAudit.Proofs.OccurrencePlaces
import EdgeAudit.Proofs.PathJoin
import EdgeAudit.Proofs.PatternLanguage
import EdgeAudit.Proofs.PatternOpening
import EdgeAudit.Proofs.PatternPlaces
import EdgeAudit.Proofs.PatternReading
import EdgeAudit.Proofs.PlainTree
import EdgeAudit.Proofs.RuleSettings
import EdgeAudit.Proofs.RuleTotality
import EdgeAudit.Proofs.ScanOrder
import EdgeAudit.Proofs.ScanReturns
import EdgeAudit.Proofs.Schedule
import EdgeAudit.Proofs.SourcePosition
import EdgeAudit.Proofs.StackWalk
import EdgeAudit.Proofs.StrategyAgreement
import EdgeAudit.Proofs.TreeOrder
import EdgeAudit.Proofs.Utf8Decoding
import EdgeAudit.Proofs.ByteOffsets
import EdgeAudit.Proofs.RecentEntries
import EdgeAudit.Proofs.CacheSteps
import EdgeAudit.Proofs.WorkerSession
import EdgeAudit.Rule.Custom
import EdgeAudit.Source.Offset
import EdgeAudit.Proofs.ChangedScan
import EdgeAudit.Proofs.FullReuse
import EdgeAudit.Proofs.MergedReferences
import EdgeAudit.Proofs.RecognisedLanguage
import EdgeAudit.Proofs.ReferenceLanguage
import EdgeAudit.Proofs.DirectoryPattern
import EdgeAudit.Proofs.LiteralDirectory
import EdgeAudit.Proofs.ReaderSteps
import EdgeAudit.Proofs.CallStatement
import EdgeAudit.Proofs.ExactThreshold
import EdgeAudit.Proofs.SelectedFiles
import EdgeAudit.Proofs.AddedFile
import EdgeAudit.Proofs.IgnoreLocality
import EdgeAudit.Proofs.AcceptedDocuments
import EdgeAudit.Proofs.DocumentNodes
import EdgeAudit.Proofs.DocumentFaults
import EdgeAudit.Proofs.ConfigLoading
import EdgeAudit.Proofs.SpecifierReading
import EdgeAudit.Proofs.IntegerText
import EdgeAudit.Proofs.ReportOrder
import EdgeAudit.Proofs.DecimalText
import EdgeAudit.Proofs.JsonReading
import EdgeAudit.Proofs.JsonReport
import EdgeAudit.Proofs.TableShape
import EdgeAudit.Proofs.RegistryHistory
import EdgeAudit.Proofs.WholeRounding
import EdgeAudit.Proofs.LegacyLiteral
