import Idl.Token.Stream
import Idl.Watch.Driver
import Idl.Workspace
import Idl.Proofs.CheckerRuns
import Idl.Proofs.CheckerGrowth
import Idl.Proofs.Denotation
import Idl.Proofs.Mentions
import Idl.Proofs.DecoratorLog
import Idl.Proofs.DecoratorRuns
import Idl.Proofs.DescentBounds
import Idl.Proofs.CheckerSteps
import Idl.Proofs.CheckerConsistency
import Idl.Proofs.BoundSymbols
import Idl.Proofs.CheckerMoves
import Idl.Proofs.ResolutionRuns
import Idl.Proofs.TemplateRuns
import Idl.Proofs.ExpressionRuns
import Idl.Proofs.DeclarationRuns
import Idl.Proofs.WholeRuns
import Idl.Proofs.FinishedTypes
import Idl.Proofs.FullDemands
import Idl.Proofs.ResolutionIdentity
import Idl.Proofs.SourceSatisfaction
import Idl.Proofs.ClosedTypes
import Idl.Proofs.HiddenErrors
import Idl.Proofs.ConcreteTypes
import Idl.Proofs.DeferredRounds
import Idl.Proofs.EndlessTemplates
import Idl.Proofs.ExtendsLoops
import Idl.Proofs.CompleteCycles
import Idl.Proofs.AbandonedWork
import Idl.Proofs.Grammar
import Idl.Proofs.SoundReading
import Idl.Proofs.SoundScripts
import Idl.Proofs.CompleteReading
import Idl.Proofs.CompleteScripts
import Idl.Proofs.ComposedTypes
import Idl.Proofs.ReusedSignatures
import Idl.Proofs.SharedShapes
import Idl.Proofs.StickyErrors
import Idl.Proofs.NestedDeclarations
import Idl.Proofs.DeprecationWarnings
import Idl.Proofs.LosslessTokens
import Idl.Proofs.TableNames
import Idl.Proofs.ShadowedNames
import Idl.Proofs.ReadingSteps
import Idl.Proofs.ReadingLimits
import Idl.Proofs.ReadingScripts
import Idl.Proofs.ReadingRounds
import Idl.Proofs.BoundNames
import Idl.Proofs.QualifiedNames
import Idl.Proofs.WalkedPaths
import Idl.Proofs.RecompileHistories
import Idl.Proofs.LoadingOrder
import Idl.Proofs.SymbolAddresses
import Idl.Proofs.DeclaredEntries
import Idl.Proofs.BoundEntries
import Idl.Proofs.ResolvedUsings
import Idl.Proofs.MatchingTables
import Idl.Proofs.FileOrder
import Idl.Proofs.BrokenStatements
import Idl.Proofs.CanonicalPaths
import Idl.Proofs.GatheredProperties
import Idl.Proofs.FiniteTexts
import Idl.Proofs.LookupOrder
import Idl.Proofs.DeclarationCounts
import Idl.Proofs.LookingAhead
import Idl.Proofs.LayeredOptions
import Idl.Proofs.QuotedTexts
import Idl.Proofs.OrderedReports
import Idl.Proofs.AppendOnlyStore
