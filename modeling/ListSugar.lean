import ListSugar.Desugar.Session
import ListSugar.Event
import ListSugar.Main
import ListSugar.Proofs.Grammar.Steps
import ListSugar.Proofs.Grammar.Types
import ListSugar.Proofs.Trees
import ListSugar.Proofs.Grammar.Exprs
import ListSugar.Proofs.Grammar.Reading
import ListSugar.Proofs.Grammar.Spanned
import ListSugar.Proofs.Grammar.Spelled
import ListSugar.Proofs.Grammar.Statements
import ListSugar.Proofs.Grammar.Programs
import ListSugar.Proofs.Layout.Numbers
import ListSugar.Proofs.Layout.Pieces
import ListSugar.Proofs.Layout.Rendered
import ListSugar.Proofs.Layout.Lines
import ListSugar.Proofs.Pass.Rewrites
import ListSugar.Proofs.Pass.Steps
import ListSugar.Proofs.Typing.Closed
import ListSugar.Proofs.RoundTrip
import ListSugar.Proofs.Pass.Numbers
import ListSugar.Proofs.Typing.Expanded
import ListSugar.Proofs.HostCode
import ListSugar.Proofs.Bracketed
import ListSugar.Proofs.Elements
import ListSugar.Proofs.Pass.Reported
import ListSugar.Proofs.Pass.Sessions
import ListSugar.Proofs.Pass.Weights
import ListSugar.Proofs.Typing.Lexical
import ListSugar.Proofs.Typing.Resolved
import ListSugar.Proofs.Typing.Unresolved
import ListSugar.Proofs.Convergence
import ListSugar.Proofs.Grammar.Placed
import ListSugar.Proofs.Formatting
import ListSugar.Proofs.Grammar.Ahead
import ListSugar.Proofs.Grammar.Calls
import ListSugar.Proofs.Layout.Joined
import ListSugar.Proofs.Layout.Lexemes
import ListSugar.Proofs.Layout.Covered
import ListSugar.Proofs.Appended
import ListSugar.Proofs.SourceOrder
import ListSugar.Proofs.Pass.Runs
import ListSugar.Proofs.Abstained
import ListSugar.Proofs.Commands
import ListSugar.Proofs.Grammar.Points
import ListSugar.Proofs.Legible
import ListSugar.Proofs.MissingOperands
import ListSugar.Proofs.Grammar.Unbounded
import ListSugar.Proofs.Grammar.Bounds
import ListSugar.Proofs.Grammar.EndMark
import ListSugar.Proofs.Pass.Policies
import ListSugar.Proofs.DroppedOperands
import ListSugar.Proofs.Typing.Spellings
import ListSugar.Proofs.Layout.Literals
import ListSugar.Proofs.Layout.Resumed
import ListSugar.Proofs.Omissions
