import Reckoner.Main
import Reckoner.CommandLine.Folder
import Reckoner.Scope.Contexts
import Reckoner.Workspace
import Reckoner.Proofs.FrameExtension
import Reckoner.Proofs.FramePreservation
import Reckoner.Proofs.LexicalScope
import Reckoner.Proofs.CopiedScope
import Reckoner.Proofs.LexicalEvaluation
import Reckoner.Proofs.SessionConduct
import Reckoner.Proofs.SessionIsolation
import Reckoner.Proofs.Lexemes
import Reckoner.Proofs.Derivation
import Reckoner.Proofs.ParserSoundness
import Reckoner.Proofs.FewerCalls
import Reckoner.Proofs.TabWidening
import Reckoner.Proofs.LiteralSign
import Reckoner.Proofs.ParsedText
import Reckoner.Proofs.Rendering
import Reckoner.Proofs.Readings
import Reckoner.Proofs.BindingAttempts
import Reckoner.Proofs.Repetitions
import Reckoner.Proofs.ParserCompleteness
import Reckoner.Proofs.RenderedText
import Reckoner.Proofs.Reachability
import Reckoner.Proofs.ScopeSimulation
import Reckoner.Proofs.UnreferencedValues
import Reckoner.Proofs.ScopeGrowth
import Reckoner.Proofs.SessionGrowth
import Reckoner.Proofs.StatementOrder
import Reckoner.Proofs.DecimalDigits
import Reckoner.Proofs.DecimalRounding
import Reckoner.Proofs.HalfUpRounding
import Reckoner.Proofs.Enclosures
import Reckoner.Proofs.EnclosedSeries
import Reckoner.Proofs.PowersOfTen
import Reckoner.Proofs.DecimalExpansion
import Reckoner.Proofs.NumeralText
import Reckoner.Proofs.CorrectDisplay
import Reckoner.Proofs.NumberIndependence
import Reckoner.Proofs.RunningCalls
import Reckoner.Proofs.LocalReading
import Reckoner.Proofs.ClosedTexts
import Reckoner.Proofs.StatementLists
import Reckoner.Proofs.LayoutVariants
import Reckoner.Proofs.InsignificantLayout
import Reckoner.Proofs.DocumentedFailures
import Reckoner.Proofs.Batches
import Reckoner.Proofs.BinaryRounding
import Reckoner.Proofs.LiteralValue
import Reckoner.Proofs.DigitCount
import Reckoner.Proofs.CanonicalText
import Reckoner.Proofs.WrittenForm
import Reckoner.Proofs.ReadBack
import Reckoner.Proofs.ShownNumbers
import Reckoner.Proofs.EvaluationTraces
import Reckoner.Proofs.StoppingPlaces
import Reckoner.Proofs.DiagnosticPlaces
import Reckoner.Proofs.Excerpts
import Reckoner.Proofs.IndentedTrees
import Reckoner.Proofs.OutlinedStatements
import Reckoner.Proofs.PrintedTrees
import Reckoner.Proofs.SpelledNames
import Reckoner.Proofs.NamesReadBack
import Reckoner.Proofs.AnsweredTexts
import Reckoner.Proofs.LosslessDisplay
import Reckoner.Proofs.WorkingPrecision
import Reckoner.Proofs.ScopeInvariants
import Reckoner.Proofs.ListedNames
import Reckoner.Proofs.CorrespondingScopes
import Reckoner.Proofs.CopiedContexts
import Reckoner.Proofs.StackRoom
import Reckoner.Proofs.InlinedCalls
import Reckoner.Proofs.RenamedScopes
import Reckoner.Proofs.ParameterNames
import Reckoner.Proofs.CarryWalk
import Reckoner.Proofs.QuietSessions
