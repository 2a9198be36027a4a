import StraightLine.Evaluation
import StraightLine.Proofs.Validation
import StraightLine.Report.Stored
import StraightLine.Tac.Parser
import StraightLine.Validator
import StraightLine.Proofs.Certificate
import StraightLine.Proofs.SExpr
import StraightLine.Proofs.Smt.Rendering
import StraightLine.Proofs.Calc.Parser
import StraightLine.Proofs.Calc.RoundTrip
import StraightLine.Proofs.Fingerprint
import StraightLine.Proofs.Sessions
import StraightLine.Proofs.Compiler.Recall
import StraightLine.Proofs.Compiler.Source
import StraightLine.Proofs.Declarations
import StraightLine.Proofs.Verdicts
import StraightLine.Proofs.SingleAssignment.Form
import StraightLine.Proofs.Encoding.History
import StraightLine.Proofs.Congruence.Derivations
import StraightLine.Proofs.SingleAssignment.Solutions
import StraightLine.Proofs.SingleAssignment.Undefined
import StraightLine.Proofs.Sensitivity
import StraightLine.Proofs.Compiler.Acceptance
import StraightLine.Proofs.Lowering.Shape
import StraightLine.Proofs.Evaluation.Exact
import StraightLine.Proofs.Solver
import StraightLine.Proofs.Tac.RoundTrip
import StraightLine.Proofs.Faults
import StraightLine.Proofs.Token.Exact
import StraightLine.Proofs.Renaming
import StraightLine.Proofs.Congruence.ClassSizes
import StraightLine.Proofs.Congruence.Interning
import StraightLine.Proofs.Calc.Depth
