import PathSets.Main
import PathSets.Path.Order
import PathSets.Proofs.Composition
import PathSets.Proofs.Resolution
import PathSets.Proofs.Sessions
import PathSets.Proofs.SubstitutionMeaning
import PathSets.Proofs.TextRoundTrip
import PathSets.Proofs.RelocatedText
import PathSets.Proofs.ExpressionGrammar
import PathSets.Proofs.PathRoundTrip
import PathSets.Proofs.PatternRoundTrip
import PathSets.Proofs.RelocatedMatching
import PathSets.Proofs.ConfigurationSearch
import PathSets.Proofs.ExactConstancy
import PathSets.Proofs.PatternSource
import PathSets.Proofs.PlainText
import PathSets.Proofs.AnchoredReferences
import PathSets.Proofs.SubstitutionAlgebra
import PathSets.Proofs.Questions
import PathSets.Proofs.PatternRefusals
import PathSets.Proofs.GlobMeaning
import PathSets.Proofs.OpenParentheses
import PathSets.Proofs.BuildFaults
import PathSets.Proofs.Spacing
import PathSets.Proofs.AnchoredEdits
import PathSets.Proofs.PathOrder
import PathSets.Proofs.Ancestry
import PathSets.Proofs.SubtreeMoves
import PathSets.Proofs.TokenCover
