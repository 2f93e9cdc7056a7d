import LeastSquares.Index
import LeastSquares.Mat
import LeastSquares.Norm

namespace LeastSquares

variable {α : Type} {m n : Nat}

/-- The factorization of a matrix into reflections, a triangular factor and a permutation of the
columns: column `j` of the permuted matrix is column `permutation j` of the given one. -/
structure QR (α : Type) (m n : Nat) where
  packed : Mat α m n
  /-- The leading components of the reflection vectors, zero where there is no reflection. -/
  leading : Vec α (min m n)
  /-- The diagonal of `R`. Entries beyond the last row are what was left of the column norms. -/
  diagonal : Vec α n
  columnNorms : Vec α n
  permutation : Vec (Fin n) n

structure Reduction (α : Type) (m n : Nat) where
  packed : Mat α m n
  leading : Vec α (min m n)
  /-- The diagonal of `R` for the reduced columns, and for the others the norm of what remains. -/
  remaining : Vec α n
  /-- The remaining norms when they were last computed from the entries. -/
  reference : Vec α n
  permutation : Vec (Fin n) n

def pivotRow (j : Fin (min m n)) : Fin m :=
  j.castLE (Nat.min_le_left m n)

def pivotColumn (j : Fin (min m n)) : Fin n :=
  j.castLE (Nat.min_le_right m n)

def tailNorm [Scalar α] (c : Vec α m) (j : Nat) : α :=
  Scalar.norm ((indicesFrom m j).map c)

/-- The column `c` divided by `size` from row `j` on, with one added to the component `j`. -/
def reflector [Arith α] (c : Vec α m) (j : Fin m) (size : α) : Vec α m :=
  .ofFn fun i =>
    if i < j then c i
    else if i = j then c i / size + 1
    else c i / size

def reflect [Arith α] (v : Vec α m) (j : Fin m) (c : Vec α m) : Vec α m :=
  let factor := Arith.sum ((indicesFrom m j).map fun i => v i * c i) / v j
  .ofFn fun i => if j ≤ i then c i - factor * v i else c i

/-- Removes a component from a remaining norm, given the norm when it was last computed. The norm
is computed from the entries again once cancellation may have spoiled it. -/
def downdate [Scalar α] (remaining reference component : α) (recompute : Unit → α) : α × α :=
  if remaining == 0 then (remaining, reference)
  else
    let part := component / remaining
    let shrunk := remaining * Arith.sqrt (Arith.maxNum (1 - part * part) 0)
    let ratio := shrunk / reference
    if 0.05 * ratio * ratio ≤ Arith.epsilon then
      let exact := recompute ()
      (exact, exact)
    else (shrunk, reference)

namespace Reduction

/-- Exchanges the columns `j` and `k`. The norms of column `j` are not needed any more. -/
def exchange (s : Reduction α m n) (j k : Fin n) : Reduction α m n :=
  if k = j then s
  else
    { s with
      packed := s.packed.swapCols j k
      remaining := s.remaining.set k (s.remaining j)
      reference := s.reference.set k (s.reference j)
      permutation := s.permutation.swap j k }

@[simp] theorem leading_exchange (s : Reduction α m n) (j k : Fin n) :
    (s.exchange j k).leading = s.leading := by
  unfold exchange
  split <;> rfl

theorem packed_exchange (s : Reduction α m n) (j k : Fin n) :
    (s.exchange j k).packed = s.packed.swapCols j k := by
  unfold exchange
  split
  · rename_i h
    rw [h, Mat.swapCols_self]
  · rfl

theorem permutation_exchange (s : Reduction α m n) (j k : Fin n) :
    (s.exchange j k).permutation = s.permutation.swap j k := by
  unfold exchange
  split
  · rename_i h
    rw [h, Vec.swap_self]
  · rfl

variable [Scalar α]

def start (a : Mat α m n) : Reduction α m n :=
  let norms := Vec.ofFn fun j => norm (a.col j)
  { packed := a
    leading := .fill _ 0
    remaining := norms
    reference := norms
    permutation := .ofFn id }

def largestColumn (s : Reduction α m n) (j : Fin n) : Fin n :=
  (indicesFrom n j).foldl (fun best k => if s.remaining best < s.remaining k then k else best) j

def reflectColumns (pivoting : Bool) (s : Reduction α m n) (j : Fin (min m n)) (v : Vec α m) :
    Reduction α m n :=
  let packed := s.packed.mapCols fun k c =>
    if pivotColumn j < k then reflect v (pivotRow j) c
    else if k = pivotColumn j then v
    else c
  let norms := Vec.ofFn fun k : Fin n =>
    if pivoting ∧ pivotColumn j < k then
      downdate (s.remaining k) (s.reference k) (packed (pivotRow j) k)
        fun _ => tailNorm (packed.col k) (j + 1)
    else (s.remaining k, s.reference k)
  { s with
    packed
    remaining := norms.map (·.1)
    reference := norms.map (·.2) }

/-- Moves the leading component of the reflector out of the matrix and puts `-size` in its place,
which is the diagonal element of `R`. -/
def finishColumn (s : Reduction α m n) (j : Fin (min m n)) (size : α) : Reduction α m n :=
  { s with
    packed := s.packed.set (pivotRow j) (pivotColumn j) (-size)
    leading := s.leading.set j (s.packed (pivotRow j) (pivotColumn j))
    remaining := s.remaining.set (pivotColumn j) (-size) }

def reduceColumn (pivoting : Bool) (s : Reduction α m n) (j : Fin (min m n)) :
    Reduction α m n :=
  let c := s.packed.col (pivotColumn j)
  let length := tailNorm c j
  if length == 0 then s.finishColumn j length
  else
    let size := if c (pivotRow j) < 0 then -length else length
    (s.reflectColumns pivoting j (reflector c (pivotRow j) size)).finishColumn j size

def step (pivoting : Bool) (s : Reduction α m n) (j : Fin (min m n)) : Reduction α m n :=
  let s := if pivoting then s.exchange (pivotColumn j) (s.largestColumn (pivotColumn j)) else s
  s.reduceColumn pivoting j

end Reduction

namespace QR

/-- The factorization of `a`. With pivoting every step brings the column of largest remaining
norm forward; without it the permutation is the identity. -/
def factorize [Scalar α] (pivoting : Bool) (a : Mat α m n) : QR α m n :=
  let start := Reduction.start a
  let s := (List.finRange (min m n)).foldl (Reduction.step pivoting) start
  { packed := s.packed
    leading := s.leading
    diagonal := s.remaining
    columnNorms := start.remaining
    permutation := s.permutation }

def r [Zero α] (f : QR α m n) : Mat α (min m n) n :=
  .ofFn fun i j => if i.val ≤ j.val then f.packed (pivotRow i) j else 0

def reflectVector [Arith α] (f : QR α m n) (b : Vec α m) (j : Fin (min m n)) : Vec α m :=
  let row := pivotRow j
  let column := pivotColumn j
  let lead := f.leading j
  if lead == 0 then b
  else
    let sum := lead * b row
      + Arith.sum ((indicesFrom m (j + 1)).map fun i => f.packed i column * b i)
    let factor := -sum / lead
    .ofFn fun i =>
      if i < row then b i
      else if i = row then b i + factor * lead
      else b i + factor * f.packed i column

def applyTranspose [Arith α] (f : QR α m n) (b : Vec α m) : Vec α m :=
  (List.finRange (min m n)).foldl f.reflectVector b

end QR

end LeastSquares
