import LeastSquares.Problems.Classic

namespace LeastSquares.Problems

variable {α : Type}

inductive Formula (α : Type)
  | const (value : α)
  | var (index : Nat)
  | add (a b : Formula α)
  | sub (a b : Formula α)
  | mul (a b : Formula α)
  | div (a b : Formula α)
  | neg (a : Formula α)
  | abs (a : Formula α)
  | sqrt (a : Formula α)
deriving Repr

structure EntryFormula (α : Type) where
  row : Nat
  column : Nat
  formula : Formula α
deriving Repr

variable [Arith α]

def Formula.eval (x : Array α) : Formula α → Except Fault α
  | const value => .ok value
  | var index => component x index
  | add a b => do return (← a.eval x) + (← b.eval x)
  | sub a b => do return (← a.eval x) - (← b.eval x)
  | mul a b => do return (← a.eval x) * (← b.eval x)
  | div a b => do return (← a.eval x) / (← b.eval x)
  | neg a => do return -(← a.eval x)
  | abs a => do return Arith.abs (← a.eval x)
  | sqrt a => do return Arith.sqrt (← a.eval x)

/-- The problem with the given residuals. Entries of the Jacobian without a formula stay as they
are. -/
def formulas (residuals : Array (Formula α)) (entries : List (EntryFormula α)) :
    Problem α Unit :=
  .ofFunctions residuals.size
    (fun x => residuals.mapM (·.eval x))
    (fun x jacobian => entries.foldlM
      (fun jacobian e => do jacobian.set e.row e.column (← e.formula.eval x)) jacobian)

end LeastSquares.Problems
