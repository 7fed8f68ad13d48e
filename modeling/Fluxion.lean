import Fluxion.Main
import Fluxion.Tree.Edit
import Fluxion.Tree.PostOrder
import Fluxion.Proofs.Grammar.Lexical
import Fluxion.Proofs.Grammar.Acceptance
import Fluxion.Proofs.Decimal.Doubles
import Fluxion.Proofs.Tree.ReadBack
import Fluxion.Proofs.Tree.RoundTrip
import Fluxion.Proofs.Expr.Differentiation
import Fluxion.Proofs.Simplify.Value
import Fluxion.Proofs.Scalar.Doubles
import Fluxion.Proofs.Simplify.Settled
import Fluxion.Proofs.Simplify.Idempotence
import Fluxion.Proofs.Simplify.Normal
import Fluxion.Proofs.Simplify.Degree
import Fluxion.Proofs.Simplify.Zeros
import Fluxion.Proofs.Expr.NormalForms
import Fluxion.Proofs.Expr.Polynomials
import Fluxion.Proofs.Simplify.Powers
import Fluxion.Proofs.Expr.Smooth
import Fluxion.Proofs.Expr.HigherDerivatives
import Fluxion.Proofs.Simplify.Runs
import Fluxion.Expr.Unchecked
import Fluxion.Proofs.Expr.Unchecked
import Fluxion.Proofs.Simplify.Effects
import Fluxion.Proofs.Decimal.Floats
import Fluxion.Proofs.Tree.Regroup
import Fluxion.Proofs.Simplify.Regroup
import Fluxion.Proofs.Simplify.Printed
import Fluxion.Proofs.Session.Output
import Fluxion.Proofs.Grammar.Lookahead
import Fluxion.Proofs.Grammar.Viability
import Fluxion.Proofs.Grammar.Continuation
import Fluxion.Proofs.Grammar.ErrorPosition
import Fluxion.Proofs.Grammar.Answers
import Fluxion.Proofs.Grammar.Barriers
import Fluxion.Proofs.Grammar.Spacing
import Fluxion.Proofs.Simplify.Termination
import Fluxion.Proofs.Simplify.Schedules
import Fluxion.Proofs.Expr.Independence
import Fluxion.Proofs.Scalar.Rounded
import Fluxion.Proofs.Simplify.Collapse
import Fluxion.Proofs.Scalar.Arithmetic
import Fluxion.Proofs.Scalar.Machine
import Fluxion.Proofs.Simplify.Evaluation
import Fluxion.Proofs.Grammar.Composed
import Fluxion.Proofs.Grammar.Furthest
import Fluxion.Proofs.Grammar.Records
import Fluxion.Proofs.Token.LongestMatch
import Fluxion.Proofs.Token.Apart
import Fluxion.Proofs.Grammar.Mapped
import Fluxion.Proofs.Expr.LeftNested
import Fluxion.Proofs.Grammar.Placement
import Fluxion.Proofs.Grammar.Contexts
import Fluxion.Proofs.Grammar.Code
import Fluxion.Proofs.Grammar.Progress
import Fluxion.Proofs.Grammar.Termination
import Fluxion.Proofs.Expr.Unbound
import Fluxion.Proofs.Session.VariableNames
import Fluxion.Proofs.Tree.DrawingText
import Fluxion.Proofs.Formula.Denotation
import Fluxion.Proofs.Tree.PostOrder
import Fluxion.Proofs.Session.Settings
import Fluxion.Proofs.Simplify.Collection
