import LieNormalForm.Double.Complex
import LieNormalForm.Jacobian
import LieNormalForm.Tuple.Linear
import LieNormalForm.Tuple.Text
import LieNormalForm.Homological.Equation
import LieNormalForm.Action
import LieNormalForm.Exponential
import LieNormalForm.Generator
import LieNormalForm.NormalForm
import LieNormalForm.Jordan.Report
import LieNormalForm.Numeric.Solver
import LieNormalForm.Equations.Jordan
import LieNormalForm.Stored.Write
import LieNormalForm.Proofs.Action.Composition
import LieNormalForm.Proofs.Action.Derivative
import LieNormalForm.Proofs.Conjugation
import LieNormalForm.Proofs.LieSeries.Velocity
import LieNormalForm.Proofs.Generator
import LieNormalForm.Proofs.Support.NormalForm
import LieNormalForm.Proofs.Homological.Pivot
import LieNormalForm.Proofs.Homological.Budget
import LieNormalForm.Proofs.Homological.Order
import LieNormalForm.Proofs.Strategies
import LieNormalForm.Proofs.Homological.Termination
import LieNormalForm.Proofs.Double
import LieNormalForm.Proofs.Outcome
import LieNormalForm.Proofs.FixedPoint
import LieNormalForm.Proofs.Canonical.NormalForm
import LieNormalForm.Proofs.Support.Triangle
import LieNormalForm.Proofs.Support.Action
import LieNormalForm.Proofs.Support.Generator
import LieNormalForm.Proofs.Truncation
import LieNormalForm.Proofs.Complex
import LieNormalForm.Proofs.Commutation
import LieNormalForm.Proofs.Symmetry
import LieNormalForm.Proofs.Expression.RoundTrip
import LieNormalForm.Proofs.Obtainable.Poly
import LieNormalForm.Proofs.Obtainable.Tuple
import LieNormalForm.Proofs.Value.Ring
import LieNormalForm.Proofs.Value.Composition
import LieNormalForm.Proofs.Action.Bracket
import LieNormalForm.Proofs.Exponential.Generator
import LieNormalForm.Proofs.Homological.Affine
import LieNormalForm.Proofs.Expression.Names
import LieNormalForm.Proofs.Expression.Evaluation
import LieNormalForm.Proofs.Expression.Guarded
import LieNormalForm.Proofs.Support.Limit
import LieNormalForm.Proofs.Value.Derivative
import LieNormalForm.Proofs.Canonical.Forms
import LieNormalForm.Proofs.Jordan.Basis
import LieNormalForm.Proofs.Jordan.Separation
import LieNormalForm.Proofs.Jordan.Reduction
import LieNormalForm.Proofs.Exponential.Truncation
import LieNormalForm.Proofs.Graded.Weights
import LieNormalForm.Proofs.Value.Matrix
import LieNormalForm.Proofs.Lookup
