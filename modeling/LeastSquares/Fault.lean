namespace LeastSquares

inductive Fault
  | indexOutOfBounds
  | shapeMismatch
  | scalingAndVectorLengths
  | jacobianDimensions
  | rightHandSideLength
  | fewerRowsThanColumns
  | notSquare
  | permutationLength
  | notPermutation
  | rowOutOfBounds
  | operandLength
  | outputLength
  | dampedArgumentLength (name : String)
  | searchScalingLength
  | searchResidualLength
  | searchStepLength
  | residualCountChanged
  | jacobianDimensionsChanged
  | sampleLengths
deriving DecidableEq, Repr

/-- The text of the violated assertion. Access outside of a container and copies between
containers of different shape have none. -/
def Fault.message : Fault → Option String
  | indexOutOfBounds => none
  | shapeMismatch => none
  | scalingAndVectorLengths => some "Scaling vector and vector must have the same length"
  | jacobianDimensions => some "Jacobian dimensions must not change"
  | rightHandSideLength =>
    some "Vector length must match the number of rows of the factored matrix"
  | fewerRowsThanColumns => some "Triangular factor requires at least as many rows as columns"
  | notSquare => some "Triangular factor must be square"
  | permutationLength => some "Permutation has wrong length"
  | notPermutation => some "Not a valid permutation"
  | rowOutOfBounds => some "Row index out of bounds"
  | operandLength => some "Vector has wrong length"
  | outputLength => some "Output vector has wrong length"
  | dampedArgumentLength name => some s!"Vector {name} must have the dimension of the factor"
  | searchScalingLength => some "Scaling vector has wrong length"
  | searchResidualLength => some "Projected residual has wrong length"
  | searchStepLength => some "Step vector has wrong length"
  | residualCountChanged => some "Problem must not change the number of residuals"
  | jacobianDimensionsChanged => some "Problem must not change the dimensions of the Jacobian"
  | sampleLengths => some "x and y must have same length"

end LeastSquares
