import LeastSquares.Problem

namespace LeastSquares.Problems

variable {α : Type}

def component (x : Array α) (i : Nat) : Except Fault α :=
  match x[i]? with
  | some a => .ok a
  | none => .error .indexOutOfBounds

variable [Arith α]

def rosenbrock : Problem α Unit :=
  .ofFunctions 2
    (fun x => do
      let a ← component x 0
      let b ← component x 1
      return #[10.0 * (b - a * a), 1 - a])
    (fun x jacobian => do
      let a ← component x 0
      let jacobian ← jacobian.set 0 0 (-20.0 * a)
      let jacobian ← jacobian.set 0 1 10.0
      let jacobian ← jacobian.set 1 0 (-1)
      jacobian.set 1 1 0)

def powell : Problem α Unit :=
  .ofFunctions 4
    (fun x => do
      let a ← component x 0
      let b ← component x 1
      let c ← component x 2
      let d ← component x 3
      let bc := b - 2.0 * c
      let ad := a - d
      return #[a + 10.0 * b, Arith.sqrt 5.0 * (c - d), bc * bc, Arith.sqrt 10.0 * (ad * ad)])
    (fun x jacobian => do
      let jacobian ← (jacobian.fill 0).set 0 0 1
      let jacobian ← jacobian.set 0 1 10.0
      let jacobian ← jacobian.set 1 2 (Arith.sqrt 5.0)
      let jacobian ← jacobian.set 1 3 (-Arith.sqrt 5.0)
      let a ← component x 0
      let b ← component x 1
      let c ← component x 2
      let d ← component x 3
      let jacobian ← jacobian.set 2 1 (2.0 * (b - 2.0 * c))
      let jacobian ← jacobian.set 2 2 (-4.0 * (b - 2.0 * c))
      let jacobian ← jacobian.set 3 0 (2.0 * Arith.sqrt 10.0 * (a - d))
      jacobian.set 3 3 (-2.0 * Arith.sqrt 10.0 * (a - d)))

/-- Three residuals in three parameters of which the second one enters none. -/
def unusedParameter : Problem α Unit :=
  .ofFunctions 3
    (fun x => do
      let a ← component x 0
      let c ← component x 2
      return #[a - 1, c - 2.0, a + c - 3.0])
    (fun _ jacobian => do
      let jacobian ← (jacobian.fill 0).set 0 0 1
      let jacobian ← jacobian.set 1 2 1
      let jacobian ← jacobian.set 2 0 1
      jacobian.set 2 2 1)

end LeastSquares.Problems
