import LeastSquares.Problems.Classic

namespace LeastSquares.Problems

variable {α : Type}

structure Samples (α : Type) where
  x : Array α
  y : Array α
  size_eq : x.size = y.size

def Samples.ofArrays (x y : Array α) : Except Fault (Samples α) :=
  if h : x.size = y.size then .ok ⟨x, y, h⟩ else .error .sampleLengths

variable [Arith α]

def slopeFit (s : Samples α) : Problem α Unit :=
  .ofFunctions s.x.size
    (fun p => do
      let slope ← component p 0
      return Array.zipWith (fun x y => x * slope - y) s.x s.y)
    (fun _ jacobian => jacobian.setColumn 0 s.x)

structure PartialSums (α : Type) where
  s0 : α
  s1 : α
  s2 : α
  s3 : α
  s4 : α
  s5 : α
  s6 : α
  s7 : α

/-- The sum of a list whose full blocks of eight are added into eight partial sums. What is left
over is added at the end, one by one. -/
def blockSum (s : PartialSums α) : List α → α
  | p0 :: p1 :: p2 :: p3 :: p4 :: p5 :: p6 :: p7 :: rest =>
    blockSum
      ⟨s.s0 + p0, s.s1 + p1, s.s2 + p2, s.s3 + p3, s.s4 + p4, s.s5 + p5, s.s6 + p6, s.s7 + p7⟩
      rest
  | rest =>
    rest.foldl (· + ·) (0 + (s.s0 + s.s4) + (s.s1 + s.s5) + (s.s2 + s.s6) + (s.s3 + s.s7))

def dot (x y : Array α) : α :=
  blockSum ⟨0, 0, 0, 0, 0, 0, 0, 0⟩ (Array.zipWith (· * ·) x y).toList

def Samples.slope (s : Samples α) : α :=
  dot s.x s.y / dot s.x s.x

end LeastSquares.Problems
