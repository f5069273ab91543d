import LeftCorner.Arithmetic
import LeftCorner.Attempt
import LeftCorner.Bound
import LeftCorner.CommandLine
import LeftCorner.Grammar.Basic
import LeftCorner.Grammar.Corners
import LeftCorner.Grammar.Parse
import LeftCorner.Grammar.Reduction
import LeftCorner.Grammar.Rules
import LeftCorner.Main
import LeftCorner.Node.Basic
import LeftCorner.Node.Constructor
import LeftCorner.Node.Text
import LeftCorner.Pattern
import LeftCorner.Pending
import LeftCorner.Phrase.Basic
import LeftCorner.Phrase.Match
import LeftCorner.Phrase.Text
import LeftCorner.Phrase.Variants
import LeftCorner.Regex.Basic
import LeftCorner.Regex.CharSet
import LeftCorner.Regex.Class
import LeftCorner.Regex.Engine
import LeftCorner.Regex.Escape
import LeftCorner.Regex.Flags
import LeftCorner.Regex.Look
import LeftCorner.Regex.Parse
import LeftCorner.Regex.Piece
import LeftCorner.Text.Quoted
import LeftCorner.Unicode.Alphabetic
import LeftCorner.Unicode.CaseFolding
import LeftCorner.Unicode.Numeral
import LeftCorner.Unicode.Ranges
import LeftCorner.Unicode.Shown
import LeftCorner.Unicode.WhiteSpace
import LeftCorner.Unicode.Word
import LeftCorner.Proofs.Definitions
import LeftCorner.Proofs.Derivation
import LeftCorner.Proofs.Outcome
import LeftCorner.Proofs.Productions
import LeftCorner.Proofs.Reductions
import LeftCorner.Proofs.Frame
import LeftCorner.Proofs.Replacement
import LeftCorner.Proofs.LeftSpine
import LeftCorner.Proofs.Conservation
import LeftCorner.Proofs.References
import LeftCorner.Proofs.Parallel
import LeftCorner.Proofs.Unrelated
import LeftCorner.Proofs.Barrier
import LeftCorner.Proofs.WholeInput
import LeftCorner.Proofs.Licence
import LeftCorner.Proofs.Settled
import LeftCorner.Proofs.Termination
import LeftCorner.Proofs.Operator
import LeftCorner.Proofs.OperatorTable
import LeftCorner.Proofs.Grouping
import LeftCorner.Proofs.ArithmeticDerivation
import LeftCorner.Proofs.ArithmeticParsing
import LeftCorner.Proofs.ArithmeticLanguage
import LeftCorner.Proofs.CornerSets
import LeftCorner.Proofs.RuleFree
import LeftCorner.Proofs.LeadingTerm
import LeftCorner.Proofs.LoneReductions
import LeftCorner.Proofs.Advance
import LeftCorner.Proofs.LeftOperand
import LeftCorner.Proofs.Options
import LeftCorner.Proofs.Lasting
import LeftCorner.Proofs.Stuck
import LeftCorner.Proofs.Sequencing
import LeftCorner.Proofs.SplitChoice
import LeftCorner.Proofs.Climbing
import LeftCorner.Proofs.ClimbingRuns
import LeftCorner.Proofs.AdmittedLevels
import LeftCorner.Proofs.Delimiting
import LeftCorner.Proofs.Rendering
import LeftCorner.Proofs.ArithmeticRendering
import LeftCorner.Proofs.Splicing
import LeftCorner.Proofs.PhraseText
import LeftCorner.Proofs.LeftmostRules
import LeftCorner.Proofs.TreeText
import LeftCorner.Proofs.HandingBack
import LeftCorner.Proofs.RegexMatches
import LeftCorner.Proofs.ClosingParenthesis
import LeftCorner.Proofs.RegexReaders
import LeftCorner.Proofs.RegexGroups
import LeftCorner.Proofs.RepetitionBounds
import LeftCorner.Proofs.EngineLaws
import LeftCorner.Proofs.Anchoring
