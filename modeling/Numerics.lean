import Numerics.Curve.Fit
import Numerics.Curve.Newton
import Numerics.Curve.Poly
import Numerics.Filter.Extended
import Numerics.Filter.Kalman
import Numerics.Flow.Integrator
import Numerics.LeastSquares.Robust
import Numerics.Mat.Checked
import Numerics.Minimize.Constrained
import Numerics.Search.Root
import Numerics.Text.Scientific
import Numerics.Proofs.Index.Folds
import Numerics.Proofs.Mat.Inverse
import Numerics.Proofs.Scalar.Exact
import Numerics.Proofs.Linear.Triangular
import Numerics.Proofs.Mat.Size
import Numerics.Proofs.Linear.Elimination
import Numerics.Proofs.Linear.Resolution
import Numerics.Proofs.Mat.Positive
import Numerics.Proofs.Linear.Squares
import Numerics.Proofs.Linear.Symmetric
import Numerics.Proofs.Filter.Correction
import Numerics.Proofs.Filter.Covariance
import Numerics.Proofs.Filter.Innovation
import Numerics.Proofs.Filter.Optimality
import Numerics.Proofs.Search.Unimodal
import Numerics.Proofs.Search.Brent
import Numerics.Proofs.Minimize.Multipliers
import Numerics.Proofs.Search.Accuracy
import Numerics.Proofs.Curve.Equations
import Numerics.Proofs.Curve.Interpolation
import Numerics.Proofs.Curve.Table
import Numerics.Proofs.Scalar.Power
import Numerics.Proofs.Curve.LeastSquares
import Numerics.Proofs.Curve.Separation
import Numerics.Proofs.Flow.Drivers
import Numerics.Proofs.Flow.Stages
import Numerics.Proofs.Flow.Order
import Numerics.Proofs.Difference.Affine
import Numerics.Proofs.Filter.Refinement
import Numerics.Proofs.Scalar.Numbers
import Numerics.Proofs.Sorting.Insertion
import Numerics.Proofs.Survey
import Numerics.Proofs.Minimize.Simplex
import Numerics.Proofs.LeastSquares.NormalEquations
import Numerics.Proofs.Search.Ray
import Numerics.Proofs.LeastSquares.GaussNewton
import Numerics.Proofs.LeastSquares.Damping
import Numerics.Proofs.LeastSquares.Reweighting
import Numerics.Proofs.Coherence
import Numerics.Proofs.Climbing
import Numerics.Proofs.Scalar.Machine
import Numerics.Proofs.Difference.Rows
import Numerics.Proofs.LeastSquares.RowSampler
import Numerics.Proofs.Curve.Agreement
import Numerics.Proofs.LeastSquares.Subsampling
import Numerics.Proofs.LeastSquares.Weights
import Numerics.Proofs.Minimize.Inactive
import Numerics.Proofs.Scalar.QuietNaN
import Numerics.Proofs.Minimize.Feasibility
import Numerics.Proofs.Minimize.Downhill
import Numerics.Proofs.Minimize.Volume
import Numerics.Proofs.Curve.Poly
import Numerics.Proofs.Minimize.Penalized
import Numerics.Proofs.Filter.Fusion
import Numerics.Proofs.Flow.Observation
import Numerics.Proofs.Announcements
import Numerics.Proofs.LeastSquares.Directions
import Numerics.Proofs.LeastSquares.Solvability
import Numerics.Proofs.LeastSquares.Evaluations
import Numerics.Proofs.LeastSquares.Termination
import Numerics.Proofs.LeastSquares.Acceptance
import Numerics.Proofs.Curve.Monomials
import Numerics.Proofs.Search.Root
import Numerics.Proofs.LeastSquares.Majority
import Numerics.Proofs.Filter.Assignments
import Numerics.Proofs.Filter.Restart
import Numerics.Proofs.Flow.Quadrature
import Numerics.Proofs.Mat.Product
import Numerics.Proofs.Flow.Autonomous
import Numerics.Proofs.Scalar.Guarded
import Numerics.Proofs.Scalar.Zeros
import Numerics.Proofs.Scalar.Signs
import Numerics.Proofs.Linear.Divisors
import Numerics.Proofs.Linear.NotANumber
import Numerics.Proofs.LeastSquares.Differences
import Numerics.Proofs.Minimize.Store
