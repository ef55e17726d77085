import Reckoner.Unicode.Alphabetic
import Reckoner.Unicode.WhiteSpace
import Reckoner.NameMap
import Reckoner.Decimal.Numeral
import Reckoner.Token.Cursor
import Reckoner.Token.Lexer
import Reckoner.Batch
import Reckoner.Evaluation.Lemmas
import Reckoner.Console
import Reckoner.Main
import Reckoner.Proofs.Decimal.RoundTrip
import Reckoner.Proofs.Token.Lexed
import Reckoner.Proofs.Token.Cover
import Reckoner.Proofs.Token.Faults
import Reckoner.Proofs.Syntax.Layout
import Reckoner.Proofs.Syntax.Programs
import Reckoner.Proofs.Syntax.Stacks
import Reckoner.Proofs.Syntax.Prefixes
import Reckoner.Proofs.Syntax.Unambiguity
import Reckoner.Proofs.Evaluation.Reachable
import Reckoner.Proofs.Evaluation.Sentences
import Reckoner.Proofs.Evaluation.Rendering
import Reckoner.Proofs.Evaluation.Faults
import Reckoner.Proofs.Evaluation.Scope
import Reckoner.Proofs.Evaluation.Requests
import Reckoner.Proofs.Evaluation.Frame
import Reckoner.Proofs.Evaluation.Histories
import Reckoner.Proofs.Batch.Points
import Reckoner.Proofs.Console.Sessions
import Reckoner.Proofs.Descent.Agreement
import Reckoner.Proofs.Evaluation.Operations
import Reckoner.Proofs.Evaluation.Refusals
import Reckoner.Proofs.Evaluation.Repetition
import Reckoner.Proofs.Syntax.Applications
import Reckoner.Proofs.Evaluation.CallDepth
import Reckoner.Proofs.Evaluation.Cycles
import Reckoner.Proofs.Token.Windows
import Reckoner.Proofs.Token.Concatenation
import Reckoner.Proofs.Console.ShownNumbers
import Reckoner.Proofs.Evaluation.Room
import Reckoner.Proofs.Evaluation.Influence
import Reckoner.Proofs.Evaluation.Preparation
import Reckoner.Proofs.Token.Rebuilding
import Reckoner.Proofs.Token.Identifiers
import Reckoner.Proofs.Token.Overflow
import Reckoner.Proofs.Descent.Bounds
import Reckoner.Proofs.Token.Substitution
