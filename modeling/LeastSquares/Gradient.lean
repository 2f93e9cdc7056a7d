import LeastSquares.Triangular

namespace LeastSquares

variable {α : Type} [Arith α] {m n : Nat}

namespace Triangular

/-- The largest cosine of an angle between the residuals and a nonzero column of the Jacobian, zero
if the residuals vanish. -/
def gradientNorm (f : Triangular α m n) (projected columnNorms : Vec α n)
    (residualNorm : α) : α :=
  if residualNorm == 0 then 0
  else
    let a := f.square
    (((List.finRange n).filter fun j => !(columnNorms (f.permutation j) == 0)).map fun j : Fin n =>
      Arith.abs
        (Arith.sum ((indicesBelow n (j + 1)).map fun i => a i j * (projected i / residualNorm))
          / columnNorms (f.permutation j))).foldl Arith.maxNum 0

end Triangular

end LeastSquares
