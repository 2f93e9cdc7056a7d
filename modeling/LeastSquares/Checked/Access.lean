import LeastSquares.Jacobian

namespace LeastSquares.Checked

variable {α β : Type}

def require (c : Prop) [Decidable c] (fault : Fault) : Except Fault Unit :=
  if c then .ok () else .error fault

def read (xs : Array β) (i : Nat) : Except Fault β :=
  match xs[i]? with
  | some x => .ok x
  | none => .error .indexOutOfBounds

def write (xs : Array β) (i : Nat) (x : β) : Except Fault (Array β) :=
  if h : i < xs.size then .ok (xs.set i x) else .error .indexOutOfBounds

def swap (xs : Array β) (i j : Nat) : Except Fault (Array β) := do
  let x ← read xs i
  let y ← read xs j
  write (← write xs i y) j x

def copy (into xs : Array β) : Except Fault (Array β) := do
  require (into.size = xs.size) .shapeMismatch
  return xs

def combine (f : β → β → β) (xs ys : Array β) : Except Fault (Array β) := do
  require (xs.size = ys.size) .shapeMismatch
  return xs.zipWith f ys

def block (xs : Array β) (start count : Nat) : Except Fault (Array β) := do
  require (start + count ≤ xs.size) .indexOutOfBounds
  return xs.extract start (start + count)

def fillBlock (xs : Array β) (start count : Nat) (x : β) : Except Fault (Array β) := do
  require (start + count ≤ xs.size) .indexOutOfBounds
  return xs.mapIdx fun i y => if start ≤ i ∧ i < start + count then x else y

def column (a : Jacobian α) (j : Nat) : Except Fault (List α) :=
  if h : j < a.parameterCount then .ok (a.entries.col ⟨j, h⟩).toList
  else .error .indexOutOfBounds

/-- A block of a column of a matrix. It may be empty, also at the end of the column. -/
def columnBlock (a : Jacobian α) (start count j : Nat) : Except Fault (List α) := do
  require (start + count ≤ a.residualCount) .indexOutOfBounds
  return ((← column a j).drop start).take count

def swapColumns (a : Jacobian α) (j k : Nat) : Except Fault (Jacobian α) :=
  if h : j < a.parameterCount ∧ k < a.parameterCount then
    .ok { a with entries := a.entries.swapCols ⟨j, h.1⟩ ⟨k, h.2⟩ }
  else .error .indexOutOfBounds

def loop (start stop : Nat) (step : β → Nat → Except Fault β) (s : β) : Except Fault β :=
  (List.range' start (stop - start)).foldlM step s

def loopDown (stop : Nat) (step : β → Nat → Except Fault β) (s : β) : Except Fault β :=
  (List.range stop).reverse.foldlM step s

def collect (start stop : Nat) (f : Nat → Except Fault β) : Except Fault (List β) :=
  (List.range' start (stop - start)).mapM f

/-- The first index from `j` on with a property, `j + count` if none below that has it. -/
def findFrom (p : Nat → Except Fault Bool) : Nat → Nat → Except Fault Nat
  | 0, j => .ok j
  | count + 1, j => do if ← p j then return j else findFrom p count (j + 1)

end LeastSquares.Checked
