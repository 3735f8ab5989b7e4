import PredictiveParsing.Body
import PredictiveParsing.CommandLine
import PredictiveParsing.Grammar.Basic
import PredictiveParsing.Grammar.Error
import PredictiveParsing.Grammar.Indexed
import PredictiveParsing.Grammar.Lines
import PredictiveParsing.Grammar.Splitting
import PredictiveParsing.Json
import PredictiveParsing.Limit
import PredictiveParsing.Lookahead.CharSets
import PredictiveParsing.Lookahead.First
import PredictiveParsing.Lookahead.Follow
import PredictiveParsing.Lookahead.Indexed
import PredictiveParsing.Main
import PredictiveParsing.Normalization.Basic
import PredictiveParsing.Normalization.Indexed
import PredictiveParsing.Normalization.LeftFactoring
import PredictiveParsing.Normalization.LeftRecursion
import PredictiveParsing.Normalization.Substitution
import PredictiveParsing.OrderedMap
import PredictiveParsing.OrderedSet
import PredictiveParsing.Proofs.AlignedText
import PredictiveParsing.Proofs.BodyText
import PredictiveParsing.Proofs.CommandLine
import PredictiveParsing.Proofs.Derivation
import PredictiveParsing.Proofs.EndlessPrediction
import PredictiveParsing.Proofs.FactoringConvergence
import PredictiveParsing.Proofs.FactoringLimit
import PredictiveParsing.Proofs.FirstSets
import PredictiveParsing.Proofs.FollowSets
import PredictiveParsing.Proofs.Frame
import PredictiveParsing.Proofs.GrammarText
import PredictiveParsing.Proofs.IndexedGrammar
import PredictiveParsing.Proofs.IndexedLookahead
import PredictiveParsing.Proofs.IndexedNormalization
import PredictiveParsing.Proofs.IndexedSession
import PredictiveParsing.Proofs.LanguagePreservation
import PredictiveParsing.Proofs.LeftCorners
import PredictiveParsing.Proofs.LeftRecursionFreedom
import PredictiveParsing.Proofs.LeftmostDerivation
import PredictiveParsing.Proofs.Lineage
import PredictiveParsing.Proofs.LookaheadExactness
import PredictiveParsing.Proofs.NormalForm
import PredictiveParsing.Proofs.NormalizationFrame
import PredictiveParsing.Proofs.NormalizationLimit
import PredictiveParsing.Proofs.NormalizationSteps
import PredictiveParsing.Proofs.Predictability
import PredictiveParsing.Proofs.PredictabilityPreservation
import PredictiveParsing.Proofs.PredictionTable
import PredictiveParsing.Proofs.Productions
import PredictiveParsing.Proofs.RecognitionCompleteness
import PredictiveParsing.Proofs.RecognitionSoundness
import PredictiveParsing.Proofs.RecognitionTermination
import PredictiveParsing.Proofs.Representation
import PredictiveParsing.Proofs.Saturation
import PredictiveParsing.Proofs.Substitution
import PredictiveParsing.Proofs.SubstitutionChains
import PredictiveParsing.Proofs.SubstitutionCost
import PredictiveParsing.Proofs.SubstitutionForests
import PredictiveParsing.Proofs.TableExactness
import PredictiveParsing.Proofs.TableGrid
import PredictiveParsing.Proofs.TableRuns
import PredictiveParsing.Proofs.TableText
import PredictiveParsing.Proofs.WellFormed
import PredictiveParsing.Recognition.Basic
import PredictiveParsing.Recognition.Trace
import PredictiveParsing.Report.Document
import PredictiveParsing.Report.Lookahead
import PredictiveParsing.Report.Productions
import PredictiveParsing.Report.Table
import PredictiveParsing.Report.Trace
import PredictiveParsing.Session
import PredictiveParsing.Session.Indexed
import PredictiveParsing.Symbol
import PredictiveParsing.Table
import PredictiveParsing.Text.Aligned
import PredictiveParsing.Text.Blank
import PredictiveParsing.Text.Lines
import PredictiveParsing.Text.Tex
