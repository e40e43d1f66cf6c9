import AsmIndex.CommandLine.Disk
import AsmIndex.Condition.Parse
import AsmIndex.Config.Decode
import AsmIndex.Files.Memory
import AsmIndex.Indexer.Settle
import AsmIndex.Json.Printer
import AsmIndex.Json.Reader
import AsmIndex.Main
import AsmIndex.OrderedMap
import AsmIndex.Path.Relative
import AsmIndex.Path.Search
import AsmIndex.Proofs.CallAccounts
import AsmIndex.Proofs.CancellationPrecedence
import AsmIndex.Proofs.CanonicalKeys
import AsmIndex.Proofs.ChangeAlgebra
import AsmIndex.Proofs.ChangeDetection
import AsmIndex.Proofs.CodeTokens
import AsmIndex.Proofs.CommentMasks
import AsmIndex.Proofs.ConditionErrors
import AsmIndex.Proofs.ConditionGrammar
import AsmIndex.Proofs.ConditionLexemes
import AsmIndex.Proofs.ConditionalBlocks
import AsmIndex.Proofs.DiagnosticReports
import AsmIndex.Proofs.Differences
import AsmIndex.Proofs.EquivalentSettings
import AsmIndex.Proofs.FileNames
import AsmIndex.Proofs.FollowedImports
import AsmIndex.Proofs.Freshness
import AsmIndex.Proofs.FromScratch
import AsmIndex.Proofs.GroupStack
import AsmIndex.Proofs.GuardedImports
import AsmIndex.Proofs.ImportGraph
import AsmIndex.Proofs.ImportOnce
import AsmIndex.Proofs.IndexCounts
import AsmIndex.Proofs.IndexerEvents
import AsmIndex.Proofs.IrrelevantSymbols
import AsmIndex.Proofs.Lifecycle
import AsmIndex.Proofs.LineReading
import AsmIndex.Proofs.LoadedKeys
import AsmIndex.Proofs.Locations
import AsmIndex.Proofs.Maps
import AsmIndex.Proofs.NestingGrammar
import AsmIndex.Proofs.NormalForms
import AsmIndex.Proofs.PassFindings
import AsmIndex.Proofs.PassOrder
import AsmIndex.Proofs.PassRecords
import AsmIndex.Proofs.PassTrace
import AsmIndex.Proofs.PathForm
import AsmIndex.Proofs.Patterns
import AsmIndex.Proofs.ProjectSettings
import AsmIndex.Proofs.Publication
import AsmIndex.Proofs.ReferenceTargets
import AsmIndex.Proofs.Regrading
import AsmIndex.Proofs.RelativeForms
import AsmIndex.Proofs.RelativePaths
import AsmIndex.Proofs.Reparse
import AsmIndex.Proofs.Resting
import AsmIndex.Proofs.RunningWalk
import AsmIndex.Proofs.ScanImports
import AsmIndex.Proofs.ScanLines
import AsmIndex.Proofs.ScanRemarks
import AsmIndex.Proofs.ScanTransport
import AsmIndex.Proofs.SearchOrder
import AsmIndex.Proofs.Settling
import AsmIndex.Proofs.SourcePlaces
import AsmIndex.Proofs.StepBounds
import AsmIndex.Proofs.StopBarrier
import AsmIndex.Proofs.Supersession
import AsmIndex.Proofs.SymbolHistories
import AsmIndex.Proofs.SymbolSets
import AsmIndex.Proofs.Termination
import AsmIndex.Proofs.TextConcatenation
import AsmIndex.Proofs.UniqueDiagnostics
import AsmIndex.Proofs.VariantOrigins
import AsmIndex.Proofs.WalkFrames
import AsmIndex.Proofs.WalkMirror
import AsmIndex.Proofs.WalkMoves
import AsmIndex.Proofs.WalkRepeat
import AsmIndex.Source.Scan
import AsmIndex.Symbols
import AsmIndex.Text
import AsmIndex.Text.Quoted
import AsmIndex.Walk
