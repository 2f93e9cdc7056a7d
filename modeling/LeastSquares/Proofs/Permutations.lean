import LeastSquares.Damped
import LeastSquares.Proofs.Loops

namespace LeastSquares

variable {α : Type} {m n : Nat}

/-- An exchange reads the other one of two indices. -/
theorem Vec.swap_eq (v : Vec α n) (i j k : Fin n) :
    v.swap i j k = v (if j = k then i else if i = k then j else k) := by
  rw [swap_apply]
  split
  · rfl
  · split <;> rfl

theorem Vec.swap_injective {v : Vec α n} (h : Function.Injective v.get) (i j : Fin n) :
    Function.Injective (v.swap i j).get := by
  intro k l hkl
  change v.swap i j k = v.swap i j l at hkl
  rw [swap_eq, swap_eq] at hkl
  have hread := h hkl
  grind

namespace Reduction

variable [Scalar α]

theorem le_largestColumn (s : Reduction α m n) (j : Fin n) : j ≤ s.largestColumn j := by
  unfold largestColumn
  refine List.foldlRecOn _ _ (Nat.le_refl _) ?_
  intro best hb k hk
  split
  · exact mem_indicesFrom.mp hk
  · exact hb

@[simp] theorem permutation_reduceColumn (pivoting : Bool) (s : Reduction α m n)
    (j : Fin (min m n)) : (s.reduceColumn pivoting j).permutation = s.permutation := by
  unfold reduceColumn
  dsimp only
  split <;> rfl

theorem permutation_step_injective (pivoting : Bool) {s : Reduction α m n} (j : Fin (min m n))
    (h : Function.Injective s.permutation.get) :
    Function.Injective (s.step pivoting j).permutation.get := by
  unfold step
  rw [permutation_reduceColumn]
  split
  · rw [permutation_exchange]
    exact Vec.swap_injective h _ _
  · exact h

end Reduction

/-- The columns of a factorization are those of the given matrix in another order. -/
theorem QR.permutation_factorize_injective [Scalar α] (pivoting : Bool) (a : Mat α m n) :
    Function.Injective (QR.factorize pivoting a).permutation.get :=
  foldl_finRange_invariant (Reduction.step pivoting)
    (fun _ s => Function.Injective s.permutation.get)
    (fun i j h => by simpa [Reduction.start] using h)
    fun j _ h => Reduction.permutation_step_injective pivoting j h

theorem Vec.injective_ofFn {β : Type} {g : Fin n → β} (h : Function.Injective g) :
    Function.Injective (Vec.ofFn g).get := by
  intro i j hij
  exact h (by simpa using hij)

theorem scatter_apply {p : Vec (Fin n) n} (h : Function.Injective p.get) (into values : Vec α n)
    (j : Fin n) : scatter p into values (p j) = values j := by
  have := foldl_finRange_invariant (fun x j => x.set (p j) (values j))
    (fun k (x : Vec α n) => ∀ j : Fin n, j < k → x (p j) = values j) (s := into)
    (fun j hj => absurd hj (Nat.not_lt_zero j)) (by
      intro i x hx j hj
      rw [Vec.set_apply]
      split
      · rename_i he
        rw [h he]
      · rename_i hne
        refine hx j (Nat.lt_of_le_of_ne (Nat.le_of_lt_succ hj) ?_)
        intro he
        exact hne (congrArg p.get (Fin.ext he.symm)))
  exact this j j.isLt

end LeastSquares
