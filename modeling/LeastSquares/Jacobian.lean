import LeastSquares.Arith
import LeastSquares.Fault
import LeastSquares.Mat

namespace LeastSquares

structure Jacobian (α : Type) where
  residualCount : Nat
  parameterCount : Nat
  entries : Mat α residualCount parameterCount

namespace Jacobian

variable {α : Type}

def zeros [Zero α] (m n : Nat) : Jacobian α :=
  ⟨m, n, .fill m n 0⟩

def ofRowMajor? (m n : Nat) (xs : Array α) : Option (Jacobian α) :=
  if h : xs.size = m * n then
    some ⟨m, n, .ofFn fun i j =>
      have inRow : i.val * n + j.val < xs.size := by
        have : (i.val + 1) * n ≤ m * n := Nat.mul_le_mul_right n i.isLt
        rw [Nat.add_mul] at this
        omega
      xs[i.val * n + j.val]⟩
  else none

def get (a : Jacobian α) (i j : Nat) : Except Fault α :=
  if h : i < a.residualCount ∧ j < a.parameterCount then
    .ok (a.entries ⟨i, h.1⟩ ⟨j, h.2⟩)
  else .error .indexOutOfBounds

def set (a : Jacobian α) (i j : Nat) (x : α) : Except Fault (Jacobian α) :=
  if h : i < a.residualCount ∧ j < a.parameterCount then
    .ok { a with entries := a.entries.set ⟨i, h.1⟩ ⟨j, h.2⟩ x }
  else .error .indexOutOfBounds

def setColumn (a : Jacobian α) (j : Nat) (c : Array α) : Except Fault (Jacobian α) :=
  if h : j < a.parameterCount then
    match Vec.ofArray? a.residualCount c with
    | some c => .ok { a with entries := a.entries.setCol ⟨j, h⟩ c }
    | none => .error .shapeMismatch
  else .error .indexOutOfBounds

def fill (a : Jacobian α) (x : α) : Jacobian α :=
  { a with entries := .fill _ _ x }

def copyFrom (a b : Jacobian α) : Except Fault (Jacobian α) :=
  if a.residualCount = b.residualCount ∧ a.parameterCount = b.parameterCount then .ok b
  else .error .jacobianDimensions

def toMat? (a : Jacobian α) (m n : Nat) : Option (Mat α m n) :=
  if h : a.residualCount = m ∧ a.parameterCount = n then some (h.1 ▸ h.2 ▸ a.entries) else none

theorem toMat?_mk {m n : Nat} (a : Mat α m n) : (⟨m, n, a⟩ : Jacobian α).toMat? m n = some a :=
  dif_pos ⟨rfl, rfl⟩

theorem eq_of_toMat? {a : Jacobian α} {m n : Nat} {b : Mat α m n} (h : a.toMat? m n = some b) :
    a = ⟨m, n, b⟩ := by
  obtain ⟨k, l, entries⟩ := a
  unfold toMat? at h
  split at h
  · rename_i hd
    obtain ⟨rfl, rfl⟩ := hd
    cases h
    rfl
  · cases h

def isZero [Arith α] (a : Jacobian α) : Bool :=
  (List.finRange a.parameterCount).all fun j => (a.entries.col j).toList.all (· == 0)

end Jacobian

end LeastSquares
