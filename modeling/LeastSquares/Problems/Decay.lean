import LeastSquares.Problems.Line
import LeastSquares.Arith.Float

namespace LeastSquares.Problems

def equidistant {α : Type} [Arith α] (first last : α) (count : Nat) : Array α :=
  Array.ofFn fun i : Fin count => first + (last - first) / ((count - 1 : Nat) : α) * (i.val : α)

def decay (times : Array Float) (tau : Float) : Array Float :=
  times.map fun t => Float.exp (-t / tau)

def decaySlope (times : Array Float) (tau : Float) : Array Float :=
  times.map fun t => Float.exp (-t / tau) * t / (tau * tau)

structure DoubleDecay where
  tau1 : Float
  tau2 : Float
  amplitude1 : Float
  amplitude2 : Float
  offset : Float

namespace DoubleDecay

def ofPoint (x : Array Float) : Except Fault DoubleDecay := do
  return ⟨← component x 0, ← component x 1, ← component x 2, ← component x 3, ← component x 4⟩

def model (p : DoubleDecay) (times : Array Float) : Array Float :=
  Array.zipWith (fun first second => first * p.amplitude1 + second * p.amplitude2 + p.offset)
    (decay times p.tau1) (decay times p.tau2)

end DoubleDecay

def doubleDecay (s : Samples Float) : Problem Float Unit :=
  .ofFunctions s.x.size
    (fun x => do
      let p ← DoubleDecay.ofPoint x
      return Array.zipWith (· - ·) (p.model s.x) s.y)
    (fun x jacobian => do
      let tau1 ← component x 0
      let tau2 ← component x 1
      let amplitude1 ← component x 2
      let amplitude2 ← component x 3
      let jacobian ← jacobian.setColumn 0 ((decaySlope s.x tau1).map (· * amplitude1))
      let jacobian ← jacobian.setColumn 1 ((decaySlope s.x tau2).map (· * amplitude2))
      let jacobian ← jacobian.setColumn 2 (decay s.x tau1)
      let jacobian ← jacobian.setColumn 3 (decay s.x tau2)
      jacobian.setColumn 4 (s.x.map fun _ => 1))

end LeastSquares.Problems
