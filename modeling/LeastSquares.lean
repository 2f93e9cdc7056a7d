import LeastSquares.Arith.Float
import LeastSquares.Decimal.Notation
import LeastSquares.Minimize
import LeastSquares.Problems.Decay
import LeastSquares.Problems.Formula
import LeastSquares.Problems.Interrupted
import LeastSquares.Problems.Limited
import LeastSquares.Problems.Located
import LeastSquares.Problems.Script
import LeastSquares.Proofs.Predictions
import LeastSquares.Proofs.Callbacks
import LeastSquares.Proofs.Dimensions
import LeastSquares.Proofs.Effort
import LeastSquares.Proofs.DescentDirections
import LeastSquares.Proofs.Overwriting
import LeastSquares.Proofs.Noninterference
import LeastSquares.Proofs.HeldResiduals
import LeastSquares.Proofs.Protocol
import LeastSquares.Proofs.Budgets
import LeastSquares.Proofs.CutOff
import LeastSquares.Proofs.Faultless
import LeastSquares.Proofs.LinearProblems
import LeastSquares.Proofs.InertParameters
import LeastSquares.Proofs.BestPoint
import LeastSquares.Proofs.ForwardSubstitution
import LeastSquares.Proofs.NormalEquations
import LeastSquares.Proofs.UnitInvariance
import LeastSquares.Proofs.StoppingTests
import LeastSquares.Proofs.InputErrors
import LeastSquares.Proofs.RankRevealing
import LeastSquares.Proofs.DampedSolves
import LeastSquares.Proofs.RepeatedSolves
import LeastSquares.Proofs.SearchBracket
import LeastSquares.Proofs.FactorChoice
import LeastSquares.Proofs.GuardedSearch
import LeastSquares.Proofs.BandedNorm
import LeastSquares.Proofs.UphillSteps
import LeastSquares.Proofs.ScalingHistory
import LeastSquares.Arith.Expression
import LeastSquares.Proofs.NormRange
import LeastSquares.Proofs.FactorPermutations

