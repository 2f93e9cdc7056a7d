import LeastSquares.Triangular

namespace LeastSquares

variable {α : Type} {m n : Nat}

structure Rotation (α : Type) where
  cos : α
  sin : α

/-- The rotation that eliminates `b` against `a`. -/
def Rotation.eliminating [Arith α] (a b : α) : Rotation α :=
  if Arith.abs a < Arith.abs b then
    let cotan := a / b
    let sin := 0.5 / Arith.sqrt (0.25 + 0.25 * cotan * cotan)
    ⟨sin * cotan, sin⟩
  else
    let tan := b / a
    let cos := 0.5 / Arith.sqrt (0.25 + 0.25 * tan * tan)
    ⟨cos, cos * tan⟩

/-- Whether a diagonal element counts as zero. -/
def negligible [Arith α] (x : α) : Bool :=
  decide (Arith.abs x ≤ Arith.epsilon)

/-- Writes `values j` to position `permutation j`, for all `j` in order. -/
def scatter (permutation : Vec (Fin n) n) (into values : Vec α n) : Vec α n :=
  (List.finRange n).foldl (fun x j => x.set (permutation j) (values j)) into

structure Elimination (α : Type) (n : Nat) where
  /-- The diagonal and lower triangle hold what is becoming `S`, transposed. -/
  square : Mat α n n
  /-- What is left of the row, and the finished part of the diagonal of `S`. -/
  row : Vec α n
  rotated : Vec α n
  /-- The right-hand side of the row that is being eliminated. -/
  carry : α

namespace Elimination

variable [Arith α]

def rotate (e : Elimination α n) (k : Fin n) : Elimination α n :=
  if e.row k == 0 then e
  else
    let g := Rotation.eliminating (e.square k k) (e.row k)
    { square := e.square.setCol k (.ofFn fun i =>
        if k ≤ i then g.cos * e.square i k + g.sin * e.row i else e.square i k)
      row := .ofFn fun i =>
        if k < i then -g.sin * e.square i k + g.cos * e.row i else e.row i
      rotated := e.rotated.set k (g.cos * e.rotated k + g.sin * e.carry)
      carry := -g.sin * e.rotated k + g.cos * e.carry }

def eliminateRow (e : Elimination α n) (j : Fin n) (d : α) : Elimination α n :=
  if d == 0 then e
  else
    (indicesFrom n j).foldl rotate
      { e with
        row := .ofFn fun k => if k < j then e.row k else if k = j then d else 0
        carry := 0 }

/-- Eliminates row `j`, then moves the finished diagonal element of `S` out of the working matrix
and restores the one of `R`. -/
def finishRow (diagonal scaling : Vec α n) (permutation : Vec (Fin n) n) (e : Elimination α n)
    (j : Fin n) : Elimination α n :=
  let e := e.eliminateRow j (scaling (permutation j))
  { e with
    row := e.row.set j (e.square j j)
    square := e.square.set j j (diagonal j) }

end Elimination

def symmetrized (a : Mat α n n) : Mat α n n :=
  .ofFn fun i j => if j ≤ i then a j i else a i j

/-- Solves with the leading block of size `rank` of the transpose of a lower triangle whose
diagonal is given. Components from `rank` on become zero. -/
def solveDampedTriangle [Arith α] (lower : Mat α n n) (diagonal b : Vec α n) (rank : Nat) :
    Vec α n :=
  (indicesBelow n rank).reverse.foldl
    (fun (z : Vec α n) (j : Fin n) =>
      let sum := Arith.sum
        (((indicesFrom n (j + 1)).filter (·.val < rank)).map fun i => lower i j * z i)
      z.set j ((z j - sum) / diagonal j))
    (.ofFn fun i => if i.val < rank then b i else 0)

structure DampedSolution (α : Type) (m n : Nat) where
  factor : Triangular α m n
  solution : Vec α n
  diagonal : Vec α n
  /-- The solution in the order of the permuted columns. -/
  permuted : Vec α n

/-- Minimizes `‖R Pᵀ x - b‖² + ‖D x‖²` where `D` has the diagonal `scaling`. From the first
negligible diagonal element of `S` on, the components are zero in permuted order. `row` is scratch
space. -/
def Triangular.solveDamped [Arith α] (f : Triangular α m n) (scaling b row : Vec α n) :
    DampedSolution α m n :=
  let a := f.square
  let diagonal := Vec.ofFn fun j => a j j
  let e := (List.finRange n).foldl (Elimination.finishRow diagonal scaling f.permutation)
    { square := symmetrized a, row, rotated := b, carry := 0 }
  let rank := firstIndex fun j => negligible (e.row j)
  let permuted := solveDampedTriangle e.square e.row e.rotated rank
  { factor := f.withSquare e.square
    solution := scatter f.permutation diagonal permuted
    diagonal := e.row
    permuted }

/-- The damped solve for a factor whose size is data. The last three arguments stand for the
output vectors, of which only the lengths matter. -/
def Factor.solveDamped [Arith α] (f : Factor α) (scaling b : Array α) (solutionLength : Nat)
    (row : Array α) (permutedLength : Nat) :
    Except Fault (DampedSolution α f.rows f.size) :=
  match Vec.ofArray? f.size scaling with
  | none => .error (.dampedArgumentLength "diag")
  | some scaling =>
    match Vec.ofArray? f.size b with
    | none => .error (.dampedArgumentLength "qtb")
    | some b =>
      if solutionLength ≠ f.size then .error (.dampedArgumentLength "x")
      else
        match Vec.ofArray? f.size row with
        | none => .error (.dampedArgumentLength "sdiag")
        | some row =>
          if permutedLength ≠ f.size then .error (.dampedArgumentLength "work")
          else .ok (f.triangular.solveDamped scaling b row)

end LeastSquares
