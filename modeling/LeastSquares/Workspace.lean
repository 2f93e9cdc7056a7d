import LeastSquares.DampingSearch

namespace LeastSquares

variable {α : Type} {m n : Nat}

structure Workspace (α : Type) where
  scaling : Array α
  projected : Array α
  step : Array α
  trialPoint : Array α
  linearChange : Array α
  columnNorms : Array α
  search : SearchMemory α
  residuals : Array α
  trialResiduals : Array α
  reflected : Array α

/-- The buffers of a workspace that only the solver writes, for fixed dimensions. -/
structure Buffers (α : Type) (m n : Nat) where
  scaling : Vec α n
  projected : Vec α n
  step : Vec α n
  trialPoint : Vec α n
  linearChange : Vec α n
  columnNorms : Vec α n
  search : SearchBuffers α n
  reflected : Vec α m

namespace Workspace

def zeros [Zero α] (m n : Nat) : Workspace α where
  scaling := .replicate n 0
  projected := .replicate n 0
  step := .replicate n 0
  trialPoint := .replicate n 0
  linearChange := .replicate n 0
  columnNorms := .replicate n 0
  search := .zeros n
  residuals := .replicate m 0
  trialResiduals := .replicate m 0
  reflected := .replicate m 0

def size (w : Workspace α) : Nat :=
  w.scaling.size + w.projected.size + w.step.size + w.trialPoint.size + w.linearChange.size
    + w.columnNorms.size + w.search.size + w.residuals.size + w.trialResiduals.size
    + w.reflected.size

/-- Replaces a workspace of other dimensions by a new one. -/
def prepared [Zero α] (w : Workspace α) (m n : Nat) : Workspace α :=
  if w.scaling.size = n ∧ w.residuals.size = m then w else zeros m n

def buffers? [Zero α] (w : Workspace α) (m n : Nat) : Option (Buffers α m n) := do
  return {
    scaling := ← Vec.ofArray? n w.scaling
    projected := ← Vec.ofArray? n w.projected
    step := ← Vec.ofArray? n w.step
    trialPoint := ← Vec.ofArray? n w.trialPoint
    linearChange := ← Vec.ofArray? n w.linearChange
    columnNorms := ← Vec.ofArray? n w.columnNorms
    search := ← w.search.buffers? n
    reflected := ← Vec.ofArray? m w.reflected }

def ofBuffers (b : Buffers α m n) (residuals trialResiduals : Array α) : Workspace α where
  scaling := b.scaling.toArray
  projected := b.projected.toArray
  step := b.step.toArray
  trialPoint := b.trialPoint.toArray
  linearChange := b.linearChange.toArray
  columnNorms := b.columnNorms.toArray
  search := .ofBuffers b.search
  residuals
  trialResiduals
  reflected := b.reflected.toArray

end Workspace

end LeastSquares
