import Scriptlet.CommandLine
import Scriptlet.Main
import Scriptlet.Token.Stream
import Scriptlet.Proofs.Evaluation.ScopeDiscipline
import Scriptlet.Proofs.Evaluation.LexicalScoping
import Scriptlet.Proofs.Syntax.Grammar
import Scriptlet.Proofs.Syntax.Spine
import Scriptlet.Proofs.Syntax.Acceptance
import Scriptlet.Proofs.Evaluation.Safety
import Scriptlet.Proofs.Evaluation.WriteFrame
import Scriptlet.Proofs.Syntax.Unrolling
import Scriptlet.Proofs.Syntax.Locality
import Scriptlet.Proofs.Syntax.Viability
import Scriptlet.Proofs.Token.Layout
import Scriptlet.Proofs.Syntax.ErrorPlace
import Scriptlet.Proofs.Syntax.Writing
import Scriptlet.Proofs.Syntax.Faithfulness
import Scriptlet.Proofs.Syntax.Precedence
import Scriptlet.Proofs.Syntax.Printing
import Scriptlet.Proofs.Token.Buffering
import Scriptlet.Proofs.Token.MaximalMunch
import Scriptlet.Proofs.Evaluation.MatchedRuns
import Scriptlet.Proofs.Evaluation.Grouping
import Scriptlet.Proofs.Evaluation.ShortCircuit
import Scriptlet.Proofs.Number.Doubles
import Scriptlet.Proofs.Evaluation.DisplayedValues
import Scriptlet.Proofs.DepthLimit
import Scriptlet.Proofs.Evaluation.DeadCode
import Scriptlet.Proofs.Evaluation.Continuing
import Scriptlet.Proofs.Scope.Histories
import Scriptlet.Proofs.Session.Inputs
import Scriptlet.Proofs.Text.Lines
import Scriptlet.Proofs.Syntax.Gist
import Scriptlet.Proofs.Session.ErrorOrigin
import Scriptlet.Proofs.Shell.Endurance
import Scriptlet.Proofs.Shell.FrontEnds
import Scriptlet.Proofs.Scope.Visibility
import Scriptlet.Proofs.Token.Separators
import Scriptlet.Proofs.Shell.Continuation
import Scriptlet.Proofs.Syntax.OperatorChains
import Scriptlet.Proofs.Syntax.NodePositions
import Scriptlet.Proofs.Diagnostic.Places
import Scriptlet.Proofs.Diagnostic.Marking
import Scriptlet.Proofs.Session.Queue
import Scriptlet.Proofs.Diagnostic.Registration
import Scriptlet.Proofs.Text.Quoted
import Scriptlet.Proofs.Number.Literals
import Scriptlet.Proofs.Syntax.Legibility
import Scriptlet.Proofs.Syntax.Nesting
