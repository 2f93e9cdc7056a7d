namespace LeastSquares

def indicesFrom (n j : Nat) : List (Fin n) :=
  (List.finRange n).filter fun i => j ≤ i.val

def indicesBelow (n j : Nat) : List (Fin n) :=
  (List.finRange n).filter fun i => i.val < j

@[simp] theorem mem_indicesFrom {n j : Nat} {i : Fin n} : i ∈ indicesFrom n j ↔ j ≤ i := by
  simp [indicesFrom, List.mem_finRange]

@[simp] theorem mem_indicesBelow {n j : Nat} {i : Fin n} : i ∈ indicesBelow n j ↔ i < j := by
  simp [indicesBelow, List.mem_finRange]

/-- The number of indices before the first one with the property, all of them if none has it. -/
def firstIndex {n : Nat} (p : Fin n → Bool) : Nat :=
  (List.finRange n).findIdx p

theorem firstIndex_le {n : Nat} (p : Fin n → Bool) : firstIndex p ≤ n := by
  have h : (List.finRange n).findIdx p ≤ (List.finRange n).length := List.findIdx_le_length
  rwa [List.length_finRange] at h

theorem not_of_lt_firstIndex {n : Nat} {p : Fin n → Bool} {i : Fin n} (h : i.val < firstIndex p) :
    p i = false := by
  have := List.not_of_lt_findIdx h
  simpa using this

end LeastSquares
