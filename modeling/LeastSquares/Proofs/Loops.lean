import LeastSquares.Index

namespace LeastSquares

variable {β : Type} {n : Nat}

/-- A loop over a list keeps an invariant that counts the finished elements. -/
theorem foldl_invariant {γ : Type} (step : β → γ → β) (P : Nat → β → Prop) (xs : List γ) (s : β)
    (start : P 0 s) (next : ∀ k (hk : k < xs.length) s, P k s → P (k + 1) (step s xs[k])) :
    P xs.length (xs.foldl step s) := by
  induction xs generalizing P s with
  | nil => exact start
  | cons x xs ih =>
    rw [List.foldl_cons, List.length_cons]
    refine ih (fun k => P (k + 1)) (step s x) (next 0 (Nat.zero_lt_succ _) s start) ?_
    intro k hk s hs
    exact next (k + 1) (Nat.succ_lt_succ hk) s hs

theorem foldl_finRange_invariant (step : β → Fin n → β) (P : Nat → β → Prop) {s : β}
    (start : P 0 s) (next : ∀ (j : Fin n) s, P j s → P (j + 1) (step s j)) :
    P n ((List.finRange n).foldl step s) := by
  have h := foldl_invariant step P (List.finRange n) s start (by
    intro k hk s hs
    have hn : k < n := by simpa using hk
    simpa using next ⟨k, hn⟩ s hs)
  simpa using h

theorem foldl_prod {γ ι : Type} (step : β → ι → β) (step' : γ → ι → γ) (xs : List ι) (s : β)
    (s' : γ) :
    xs.foldl (fun p x => (step p.1 x, step' p.2 x)) (s, s') =
      (xs.foldl step s, xs.foldl step' s') := by
  induction xs generalizing s s' with
  | nil => rfl
  | cons x xs ih => exact ih (step s x) (step' s' x)

/-- Two loops side by side keep a relation that counts the finished indices. -/
theorem foldl_finRange_related {γ : Type} (step : β → Fin n → β) (step' : γ → Fin n → γ)
    (R : Nat → β → γ → Prop) {s : β} {s' : γ} (start : R 0 s s')
    (next : ∀ (j : Fin n) s s', R j s s' → R (j + 1) (step s j) (step' s' j)) :
    R n ((List.finRange n).foldl step s) ((List.finRange n).foldl step' s') := by
  have h := foldl_finRange_invariant (fun p j => (step p.1 j, step' p.2 j))
    (fun k p => R k p.1 p.2) (s := (s, s')) start fun j p hp => next j p.1 p.2 hp
  rwa [foldl_prod] at h

theorem foldl_indicesFrom_invariant (step : β → Fin n → β) (P : Nat → β → Prop) {s : β} {j : Nat}
    (hj : j ≤ n) (start : P j s) (next : ∀ (k : Fin n) s, j ≤ k → P k s → P (k + 1) (step s k)) :
    P n ((indicesFrom n j).foldl step s) := by
  rw [indicesFrom, List.foldl_filter]
  have h := foldl_finRange_invariant (fun s k => if j ≤ k.val then step s k else s)
    (fun k => P (max j k)) (s := s) (by simpa using start) (by
      intro k s hs
      by_cases hk : j ≤ k.val
      · rw [Nat.max_eq_right hk] at hs
        rw [Nat.max_eq_right (by omega), if_pos hk]
        exact next k s hk hs
      · rw [Nat.max_eq_left (by omega)] at hs
        rw [Nat.max_eq_left (by omega), if_neg hk]
        exact hs)
  rw [Nat.max_eq_right hj] at h
  simpa using h

/-- A loop over the indices below `r`, from the largest to the smallest. -/
theorem foldl_reverse_indicesBelow_invariant (step : β → Fin n → β) (P : Nat → β → Prop) {s : β}
    {r : Nat} (hr : r ≤ n) (start : P r s)
    (next : ∀ (k : Fin n) s, k < r → P (k + 1) s → P k (step s k)) :
    P 0 ((indicesBelow n r).reverse.foldl step s) := by
  rw [indicesBelow, ← List.filter_reverse, List.foldl_filter]
  have h := foldl_invariant (fun s (k : Fin n) => if k.val < r then step s k else s)
    (fun k => P (min r (n - k))) (List.finRange n).reverse s
    (by simpa [Nat.min_eq_left hr] using start) (by
      intro k hk s hs
      have hn : k < n := by simpa using hk
      rw [List.getElem_reverse, List.getElem_finRange]
      simp only [List.length_finRange, Fin.val_cast]
      by_cases hlt : n - 1 - k < r
      · rw [if_pos hlt, Nat.min_eq_right (by omega)]
        rw [Nat.min_eq_right (by omega)] at hs
        have := next ⟨n - 1 - k, by omega⟩ s hlt (by
          have he : n - 1 - k + 1 = n - k := by omega
          simpa [he] using hs)
        have he : n - (k + 1) = n - 1 - k := by omega
        rw [he]
        exact this
      · rw [if_neg hlt, Nat.min_eq_left (by omega)]
        rwa [Nat.min_eq_left (by omega)] at hs)
  simpa using h

end LeastSquares
