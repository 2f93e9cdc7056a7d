import LeastSquares.Settings

namespace LeastSquares

variable {α : Type} [Arith α] {m n : Nat}

namespace Tuning

variable {t : Tuning α}

/-- Constants pass all checks exactly if they are finite and lie in their ranges. -/
theorem error?_eq_none_iff : t.error? = none ↔
    (Arith.isFinite t.searchTolerance = true ∧ Arith.isFinite t.shrinkThreshold = true ∧
      Arith.isFinite t.growThreshold = true ∧ Arith.isFinite t.acceptanceThreshold = true) ∧
    ¬(t.searchTolerance ≤ 0 ∨ 1 ≤ t.searchTolerance) ∧
    (0 ≤ t.acceptanceThreshold ∧ t.acceptanceThreshold ≤ t.shrinkThreshold ∧
      t.shrinkThreshold < t.growThreshold) ∧
    t.maxSearchPasses ≠ 0 := by
  have hfinite : (!([t.searchTolerance, t.shrinkThreshold, t.growThreshold,
      t.acceptanceThreshold].all Arith.isFinite)) = true ↔
        ¬(Arith.isFinite t.searchTolerance = true ∧ Arith.isFinite t.shrinkThreshold = true ∧
          Arith.isFinite t.growThreshold = true ∧
          Arith.isFinite t.acceptanceThreshold = true) := by
    simp only [List.all_cons, List.all_nil, Bool.and_true, Bool.not_eq_true', ← Bool.not_eq_true,
      Bool.and_eq_true]
  unfold error?
  split
  · rename_i finite
    exact iff_of_false nofun fun h => hfinite.mp finite h.1
  rename_i finite
  have finite := Decidable.not_not.mp fun h => finite (hfinite.mpr h)
  split
  · rename_i range
    exact iff_of_false nofun fun h => h.2.1 range
  rename_i range
  split
  · rename_i order
    exact iff_of_false nofun fun h => order h.2.2.1
  rename_i order
  split
  · rename_i passes
    exact iff_of_false nofun fun h => h.2.2.2 passes
  · rename_i passes
    exact iff_of_true rfl ⟨finite, range, Decidable.not_not.mp order, passes⟩

/-- The order of the thresholds of constants that pass all checks. -/
theorem thresholds_of_error? (h : t.error? = none) :
    0 ≤ t.acceptanceThreshold ∧ t.acceptanceThreshold ≤ t.shrinkThreshold ∧
      t.shrinkThreshold < t.growThreshold := by
  obtain ⟨-, -, order, -⟩ := error?_eq_none_iff.mp h
  exact order

end Tuning

/-- Fixed factors pass the check exactly if there is one for every parameter and each of them may be
a factor. -/
theorem Scaling.error?_fixed_eq_none_iff {factors : Array α} :
    (fixed factors).error? n = none ↔ factors.size = n ∧ ∀ x ∈ factors, isFactor x = true := by
  unfold error?
  dsimp only
  split
  · rename_i hsize
    exact iff_of_false nofun fun h => hsize h.1
  · rename_i hsize
    have hindex : factors.size ≤ factors.toList.findIdx (!isFactor ·) ↔
        factors.toList.findIdx (!isFactor ·) = factors.toList.length :=
      ⟨Nat.le_antisymm List.findIdx_le_length, fun h => Nat.le_of_eq h.symm⟩
    rw [Option.map_eq_none_iff, Array.getElem?_eq_none_iff, hindex, List.findIdx_eq_length,
      and_iff_right (Decidable.not_not.mp hsize)]
    simp only [Bool.not_eq_false', Array.mem_toList_iff]

namespace Settings

variable {s : Settings α}

theorem toleranceError?_eq_none_iff : s.toleranceError? = none ↔
    isTolerance s.functionTolerance = true ∧ isTolerance s.stepTolerance = true ∧
      isTolerance s.gradientTolerance = true := by
  simp [toleranceError?]

/-- Settings pass all checks exactly if they pass each of them. -/
theorem error?_eq_none_iff : s.error? m n = none ↔
    n ≠ 0 ∧ n ≤ m ∧ s.toleranceError? = none ∧ s.maxEvaluations ≠ some 0 ∧
      isFactor s.stepBound = true ∧ s.scaling.error? n = none ∧ s.tuning.error? = none := by
  unfold error?
  split
  · rename_i zero
    exact iff_of_false nofun fun h => h.1 zero
  rename_i positive
  split
  · rename_i few
    exact iff_of_false nofun fun h => Nat.not_le_of_lt few h.2.1
  · rename_i enough
    have hbound : (if isFactor s.stepBound then none
        else some (InputError.badStepBound s.stepBound)) = none ↔
          isFactor s.stepBound = true := by
      cases isFactor s.stepBound <;> simp
    rw [and_iff_right positive, and_iff_right (Nat.not_lt.mp enough)]
    simp only [Option.orElse_eq_orElse, Option.orElse_eq_or, Option.or_eq_none_iff, hbound,
      ite_eq_right_iff, reduceCtorEq, imp_false, Option.map_eq_none_iff]

/-- The single checks of settings that pass all of them. -/
theorem checks_of_error? (h : s.error? m n = none) :
    s.toleranceError? = none ∧ s.maxEvaluations ≠ some 0 ∧ isFactor s.stepBound = true ∧
      s.scaling.error? n = none ∧ s.tuning.error? = none := by
  obtain ⟨-, -, checks⟩ := error?_eq_none_iff.mp h
  exact checks

theorem tuning_of_error? (h : s.error? m n = none) : s.tuning.error? = none := by
  obtain ⟨-, -, -, -, tuning⟩ := checks_of_error? h
  exact tuning

theorem isTolerance_of_error? (h : s.error? m n = none) :
    isTolerance s.functionTolerance = true ∧ isTolerance s.stepTolerance = true ∧
      isTolerance s.gradientTolerance = true := by
  obtain ⟨tolerances, -⟩ := checks_of_error? h
  exact toleranceError?_eq_none_iff.mp tolerances

end Settings

end LeastSquares
