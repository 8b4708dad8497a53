import FunctionAlgebra.Archive.Store
import FunctionAlgebra.Double
import FunctionAlgebra.Evaluator
import FunctionAlgebra.Expression
import FunctionAlgebra.Fn.Property
import FunctionAlgebra.Fn.CheckedKnots
import FunctionAlgebra.Fn.CheckedScale
import FunctionAlgebra.Fn.Construct
import FunctionAlgebra.Fn.Knots
import FunctionAlgebra.Fn.Rebuild
import FunctionAlgebra.Fn.Walk
import FunctionAlgebra.Interval.Checked
import FunctionAlgebra.Interval.Order
import FunctionAlgebra.Lists
import FunctionAlgebra.Proofs.Attempt
import FunctionAlgebra.Proofs.Exact
import FunctionAlgebra.Proofs.Induction
import FunctionAlgebra.Proofs.Neighbours
import FunctionAlgebra.Proofs.Value
import FunctionAlgebra.Proofs.Equality
import FunctionAlgebra.Proofs.Scaling
import FunctionAlgebra.Proofs.Kernels
import FunctionAlgebra.Proofs.Laws
import FunctionAlgebra.Proofs.MergeCases
import FunctionAlgebra.Proofs.Termination
import FunctionAlgebra.Proofs.Angle
import FunctionAlgebra.Proofs.Rendering
import FunctionAlgebra.Proofs.DerivativeOutcome
import FunctionAlgebra.Proofs.SineShifts
import FunctionAlgebra.Proofs.Approximation
import FunctionAlgebra.Proofs.MergeValues
import FunctionAlgebra.Proofs.SimplifyValues
import FunctionAlgebra.Proofs.DerivativeValues
import FunctionAlgebra.Proofs.Comparison
import FunctionAlgebra.Proofs.DoubleOrder
import FunctionAlgebra.Proofs.Order
import FunctionAlgebra.Proofs.Galloping
import FunctionAlgebra.Proofs.Sorting
import FunctionAlgebra.Proofs.FunctionSort
import FunctionAlgebra.Proofs.Lightening
import FunctionAlgebra.Proofs.Indistinguishable
import FunctionAlgebra.Proofs.LikeTerms
import FunctionAlgebra.Proofs.Composed
import FunctionAlgebra.Proofs.Forget
import FunctionAlgebra.Proofs.Reduced
import FunctionAlgebra.Proofs.Stored
import FunctionAlgebra.Proofs.Multiples
import FunctionAlgebra.Proofs.Rescaling
import FunctionAlgebra.Proofs.FiniteRun
import FunctionAlgebra.Proofs.ReducedForm
import FunctionAlgebra.Proofs.Ordered
import FunctionAlgebra.Proofs.Recursion
import FunctionAlgebra.Proofs.Shuffled
import FunctionAlgebra.Proofs.Canonical
import FunctionAlgebra.Proofs.Idempotence
import FunctionAlgebra.Proofs.SeparateFactors
import FunctionAlgebra.Proofs.IntervalPoints
import FunctionAlgebra.Proofs.SegmentOrder
import FunctionAlgebra.Proofs.Tiling
import FunctionAlgebra.Proofs.SegmentLookup
import FunctionAlgebra.Proofs.SegmentScan
import FunctionAlgebra.Proofs.KnotPoints
import FunctionAlgebra.Proofs.KnotRestriction
import FunctionAlgebra.Proofs.KnotBound
import FunctionAlgebra.Proofs.KnotSimplification
import FunctionAlgebra.Proofs.NodeCount
import FunctionAlgebra.Proofs.CollectedTerms
import FunctionAlgebra.Proofs.Polynomial
import FunctionAlgebra.Proofs.DerivativeCache
import FunctionAlgebra.Proofs.ExpressionValue
import FunctionAlgebra.Proofs.ArchiveMap
import FunctionAlgebra.Proofs.DoubleArithmetic
import FunctionAlgebra.Proofs.FiniteShifts
import FunctionAlgebra.Proofs.KnotReports
import FunctionAlgebra.Proofs.Discontinuities
import FunctionAlgebra.Proofs.Rebuilding
import FunctionAlgebra.Proofs.Interpolation
import FunctionAlgebra.Proofs.ConstantFolding
import FunctionAlgebra.Proofs.KeptWeight
import FunctionAlgebra.Proofs.CanonicalLeaves
import FunctionAlgebra.Proofs.Preorder
