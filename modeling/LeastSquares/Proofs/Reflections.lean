import LeastSquares.Proofs.Permutations
import LeastSquares.Proofs.Real

namespace LeastSquares

variable {m n : Nat}

/-- The reflection along `w`, whose squared length is twice `lead`. Without a leading component
nothing is reflected. -/
noncomputable def reflection (lead : ℝ) (w b : Fin m → ℝ) : Fin m → ℝ :=
  b - (w ⬝ᵥ b / lead) • w

def Reflects (lead : ℝ) (w : Fin m → ℝ) : Prop :=
  lead = 0 ∨ w ⬝ᵥ w = lead + lead

theorem reflection_zero (w b : Fin m → ℝ) : reflection 0 w b = b := by
  simp [reflection]

theorem reflection_of_orthogonal {w b : Fin m → ℝ} (lead : ℝ) (h : w ⬝ᵥ b = 0) :
    reflection lead w b = b := by
  simp [reflection, h]

theorem Reflects.dot {lead : ℝ} {w : Fin m → ℝ} (h : Reflects lead w) (a b : Fin m → ℝ) :
    reflection lead w a ⬝ᵥ reflection lead w b = a ⬝ᵥ b := by
  rcases h with rfl | hw
  · rw [reflection_zero, reflection_zero]
  · by_cases hl : lead = 0
    · rw [hl, reflection_zero, reflection_zero]
    · simp only [reflection, sub_dotProduct, dotProduct_sub, smul_dotProduct, dotProduct_smul,
        smul_eq_mul, hw, dotProduct_comm a w]
      field_simp
      ring

def axis (j : Fin m) (lead : ℝ) (c : Fin m → ℝ) : Fin m → ℝ :=
  fun i => if i < j then 0 else if i = j then lead else c i

theorem axis_dot {j : Fin m} (lead : ℝ) (c : Fin m → ℝ) {b : Fin m → ℝ}
    (h : ∀ i, j ≤ i → b i = 0) : axis j lead c ⬝ᵥ b = 0 := by
  apply Finset.sum_eq_zero
  intro i _
  by_cases hi : i < j
  · simp [axis, hi]
  · rw [h i (not_lt.mp hi), mul_zero]

/-- The loop over rows in a reflection is the reflection along an axis. -/
theorem reflect_get (v c : Vec ℝ m) (j : Fin m) :
    (reflect v j c).get = reflection (v j) (axis j (v j) v.get) c.get := by
  have hsum : Arith.sum ((indicesFrom m j).map fun i => v i * c i) =
      axis j (v j) v.get ⬝ᵥ c.get := by
    rw [Arith.sum_real, sum_indicesFrom]
    apply Finset.sum_congr rfl
    intro i _
    unfold axis
    by_cases hi : i < j
    · rw [if_neg (by simpa using hi), if_pos hi, zero_mul]
    · rw [if_pos (by simpa using hi), if_neg hi]
      split
      · rename_i he
        rw [he]
      · rfl
  funext i
  unfold reflect
  simp only [Vec.ofFn_apply, hsum, reflection, Pi.sub_apply, Pi.smul_apply, smul_eq_mul]
  unfold axis
  by_cases hi : j ≤ i
  · rw [if_pos hi, if_neg (not_lt.mpr hi)]
    split
    · rename_i he
      rw [he]
    · rfl
  · rw [if_neg hi, if_pos (not_le.mp hi), mul_zero, sub_zero]

noncomputable def reflectFirst {p : Nat} (lead : Fin p → ℝ) (w : Fin p → Fin m → ℝ) :
    Nat → (Fin m → ℝ) → Fin m → ℝ
  | 0, b => b
  | k + 1, b =>
    if h : k < p then reflection (lead ⟨k, h⟩) (w ⟨k, h⟩) (reflectFirst lead w k b)
    else reflectFirst lead w k b

section ReflectFirst

variable {p k : Nat} {lead lead' : Fin p → ℝ} {w w' : Fin p → Fin m → ℝ}

theorem reflectFirst_succ (j : Fin p) (b : Fin m → ℝ) :
    reflectFirst lead w (j + 1) b = reflection (lead j) (w j) (reflectFirst lead w j b) := by
  rw [reflectFirst, dif_pos j.isLt]

theorem reflectFirst_dot (h : ∀ j : Fin p, j < k → Reflects (lead j) (w j)) (a b : Fin m → ℝ) :
    reflectFirst lead w k a ⬝ᵥ reflectFirst lead w k b = a ⬝ᵥ b := by
  induction k with
  | zero => rfl
  | succ k ih =>
    have hk := ih fun j hj => h j (Nat.lt_succ_of_lt hj)
    unfold reflectFirst
    split
    · rename_i hp
      rw [(h ⟨k, hp⟩ (Nat.lt_succ_self k)).dot, hk]
    · exact hk

theorem reflectFirst_congr (hl : ∀ j : Fin p, j < k → lead j = lead' j)
    (hw : ∀ j : Fin p, j < k → w j = w' j) (b : Fin m → ℝ) :
    reflectFirst lead w k b = reflectFirst lead' w' k b := by
  induction k with
  | zero => rfl
  | succ k ih =>
    have hk := ih (fun j hj => hl j (Nat.lt_succ_of_lt hj)) fun j hj => hw j (Nat.lt_succ_of_lt hj)
    unfold reflectFirst
    split
    · rename_i hp
      rw [hl ⟨k, hp⟩ (Nat.lt_succ_self k), hw ⟨k, hp⟩ (Nat.lt_succ_self k), hk]
    · exact hk

end ReflectFirst

def tail (j : Fin m) (c : Fin m → ℝ) : Fin m → ℝ :=
  fun i => if i < j then 0 else c i

theorem tail_dot_self (j : Fin m) (c : Vec ℝ m) : tail j c.get ⬝ᵥ c.get = tailNorm c j ^ 2 := by
  rw [tailNorm_sq]
  apply Finset.sum_congr rfl
  intro i _
  unfold tail
  by_cases hi : i < j
  · rw [if_pos hi, if_neg (by simpa using hi), zero_mul]
  · rw [if_neg hi, if_pos (by simpa using hi), pow_two]

theorem tail_dot_tail (j : Fin m) (c : Fin m → ℝ) : tail j c ⬝ᵥ tail j c = tail j c ⬝ᵥ c := by
  apply Finset.sum_congr rfl
  intro i _
  unfold tail
  split
  · rw [zero_mul, zero_mul]
  · rfl

theorem eq_zero_of_tailNorm {j : Fin m} {c : Vec ℝ m} (h : tailNorm c j = 0) {i : Fin m}
    (hi : j ≤ i) : c i = 0 := by
  have hsum := tailNorm_sq c j
  rw [h, zero_pow two_ne_zero, eq_comm, Finset.sum_eq_zero_iff_of_nonneg] at hsum
  · have := hsum i (Finset.mem_univ i)
    rw [if_pos (by exact hi)] at this
    exact pow_eq_zero_iff two_ne_zero |>.mp this
  · intro k _
    split
    · exact sq_nonneg _
    · exact le_rfl

/-- What the size of a reflection has to be for the column `c`: the norm from index `j` on, with
the sign of the component there. -/
structure IsSize (c : Vec ℝ m) (j : Fin m) (size : ℝ) : Prop where
  sq : size ^ 2 = tailNorm c j ^ 2
  ne_zero : size ≠ 0
  sign : 0 ≤ c j / size

theorem isSize_of_tailNorm_ne_zero {c : Vec ℝ m} {j : Fin m} (h : tailNorm c j ≠ 0) :
    IsSize c j (if c j < 0 then -tailNorm c j else tailNorm c j) := by
  have hpos : 0 < tailNorm c j := lt_of_le_of_ne (RealNorm.nonneg _) (Ne.symm h)
  split
  · rename_i hneg
    exact ⟨neg_sq _, neg_ne_zero.mpr h, div_nonneg_of_nonpos hneg.le (neg_nonpos.mpr hpos.le)⟩
  · rename_i hneg
    exact ⟨rfl, h, div_nonneg (not_lt.mp hneg) hpos.le⟩

section Reflector

variable {c : Vec ℝ m} {j : Fin m} {size : ℝ}

theorem reflector_apply (c : Vec ℝ m) (j : Fin m) (size : ℝ) (i : Fin m) : reflector c j size i =
    if i < j then c i else if i = j then c i / size + 1 else c i / size := by
  simp [reflector]

theorem reflector_lead (c : Vec ℝ m) (j : Fin m) (size : ℝ) :
    reflector c j size j = c j / size + 1 := by
  simp [reflector]

/-- The axis of the reflection is the scaled column with one added to its first component. -/
theorem axis_reflector (c : Vec ℝ m) (j : Fin m) (size : ℝ) :
    axis j (reflector c j size j) (reflector c j size).get =
      size⁻¹ • tail j c.get + Pi.single j 1 := by
  funext i
  change (if i < j then 0 else if i = j then reflector c j size j else reflector c j size i) = _
  rw [reflector_lead, reflector_apply, Pi.add_apply, Pi.smul_apply, smul_eq_mul, tail]
  rcases lt_trichotomy i j with hi | rfl | hi
  · rw [if_pos hi, if_pos hi, Pi.single_eq_of_ne hi.ne, mul_zero, zero_add]
  · rw [if_neg (lt_irrefl i), if_pos rfl, if_neg (lt_irrefl i), Pi.single_eq_same]
    rw [div_eq_inv_mul]
  · rw [if_neg hi.not_gt, if_neg hi.ne', if_neg hi.not_gt, if_neg hi.ne', if_neg hi.not_gt,
      Pi.single_eq_of_ne hi.ne', add_zero, div_eq_inv_mul]

theorem IsSize.reflects (h : IsSize c j size) :
    Reflects (reflector c j size j) (axis j (reflector c j size j) (reflector c j size).get) := by
  refine Or.inr ?_
  have hne := h.ne_zero
  have hlead : tail j c.get j = c j := if_neg (lt_irrefl j)
  have htail : tail j c.get ⬝ᵥ tail j c.get = size ^ 2 := by
    rw [tail_dot_tail, tail_dot_self, h.sq]
  rw [axis_reflector, reflector_lead]
  simp only [add_dotProduct, dotProduct_add, smul_dotProduct, dotProduct_smul, smul_eq_mul,
    single_dotProduct, dotProduct_single, Pi.add_apply, Pi.smul_apply, Pi.single_eq_same, htail,
    hlead]
  field_simp
  ring

/-- The reflection turns the column, from index `j` on, into a multiple of a unit vector. -/
theorem IsSize.reflection_apply (h : IsSize c j size) (i : Fin m) :
    reflection (reflector c j size j)
        (axis j (reflector c j size j) (reflector c j size).get) c.get i =
      if i < j then c i else if i = j then -size else 0 := by
  have hne := h.ne_zero
  have hlead : c j / size + 1 ≠ 0 := (add_pos_of_nonneg_of_pos h.sign one_pos).ne'
  have hdot : axis j (reflector c j size j) (reflector c j size).get ⬝ᵥ c.get =
      size * (c j / size + 1) := by
    rw [axis_reflector, add_dotProduct, smul_dotProduct, single_dotProduct, tail_dot_self, ← h.sq]
    change size⁻¹ * size ^ 2 + 1 * c j = _
    field_simp
    ring
  rw [reflection, hdot, reflector_lead, mul_div_cancel_right₀ _ hlead]
  change c i - size * (if i < j then 0 else if i = j then c j / size + 1
    else reflector c j size i) = _
  rcases lt_trichotomy i j with hi | rfl | hi
  · rw [if_pos hi, if_pos hi, mul_zero, sub_zero]
  · rw [if_neg (lt_irrefl i), if_pos rfl, if_neg (lt_irrefl i), if_pos rfl]
    field_simp
    ring
  · rw [if_neg hi.not_gt, if_neg hi.ne', if_neg hi.not_gt, if_neg hi.ne', reflector_apply,
      if_neg hi.not_gt, if_neg hi.ne', mul_div_cancel₀ _ hne, sub_self]

end Reflector

theorem swap_eq_ite (j c l : Fin n) :
    Equiv.swap j c l = if c = l then j else if j = l then c else l := by
  rw [Equiv.swap_comm, Equiv.swap_apply_def]
  simp only [eq_comm (a := l)]

theorem le_swap {k : Nat} {j c l : Fin n} (hj : k ≤ j) (hc : k ≤ c) (hl : k ≤ l) :
    k ≤ Equiv.swap j c l := by
  rw [swap_eq_ite]
  split
  · exact hj
  · split
    · exact hc
    · exact hl

namespace Reduction

def axes (s : Reduction ℝ m n) (j : Fin (min m n)) : Fin m → ℝ :=
  axis (pivotRow j) (s.leading j) (s.packed.col (pivotColumn j)).get

noncomputable def reflected (s : Reduction ℝ m n) (k : Nat) (b : Fin m → ℝ) : Fin m → ℝ :=
  reflectFirst s.leading.get s.axes k b

/-- What `k` finished columns mean: the reflections are isometries, and reflecting a column of the
given matrix gives what is stored of it, without the reflection vector below the diagonal. -/
structure Reduced (a : Mat ℝ m n) (k : Nat) (s : Reduction ℝ m n) : Prop where
  reflects : ∀ j : Fin (min m n), j < k → Reflects (s.leading j) (s.axes j)
  column : ∀ (c : Fin n) (i : Fin m), s.reflected k (a.col (s.permutation c)).get i =
    if i.val ≤ c ∨ k ≤ c then s.packed i c else 0

variable {a : Mat ℝ m n} {s : Reduction ℝ m n} {k : Nat}

theorem Reduced.start (a : Mat ℝ m n) : Reduced a 0 (Reduction.start a) where
  reflects j hj := absurd hj (Nat.not_lt_zero j)
  column c i := by
    rw [if_pos (Or.inr (Nat.zero_le c))]
    change (a.col ((Vec.ofFn id : Vec (Fin n) n) c)).get i = a i c
    rw [Vec.ofFn_apply]
    rfl

theorem axes_congr {s' : Reduction ℝ m n} {j : Fin (min m n)}
    (hl : s'.leading j = s.leading j)
    (hp : ∀ i, pivotRow j < i → s'.packed i (pivotColumn j) = s.packed i (pivotColumn j)) :
    s'.axes j = s.axes j := by
  funext i
  unfold axes axis
  rcases lt_trichotomy i (pivotRow j) with hi | hi | hi
  · rw [if_pos hi, if_pos hi]
  · rw [if_neg hi.not_lt, if_neg hi.not_lt, if_pos hi, if_pos hi, hl]
  · rw [if_neg hi.not_gt, if_neg hi.not_gt, if_neg hi.ne', if_neg hi.ne']
    exact hp i hi

theorem col_exchange (s : Reduction ℝ m n) (j c l : Fin n) :
    (s.exchange j c).packed.col l = s.packed.col (Equiv.swap j c l) := by
  rw [packed_exchange, Mat.col_swapCols, swap_eq_ite]
  split
  · rfl
  · split <;> rfl

/-- Exchanging columns that are not finished does not touch the finished ones, nor the reflections.
-/
theorem col_exchange_pivotColumn {j c : Fin n} (hj : k ≤ j) (hc : k ≤ c) {i : Fin (min m n)}
    (hi : i < k) :
    (s.exchange j c).packed.col (pivotColumn i) = s.packed.col (pivotColumn i) := by
  rw [col_exchange, Equiv.swap_apply_of_ne_of_ne]
  · rintro rfl
    exact absurd hj (not_le.mpr hi)
  · rintro rfl
    exact absurd hc (not_le.mpr hi)

theorem axes_exchange {j c : Fin n} (hj : k ≤ j) (hc : k ≤ c) {i : Fin (min m n)} (hi : i < k) :
    (s.exchange j c).axes i = s.axes i := by
  refine axes_congr (by rw [leading_exchange]) fun r _ => ?_
  rw [← Mat.col_apply, col_exchange_pivotColumn hj hc hi, Mat.col_apply]

theorem reflected_exchange {j c : Fin n} (hj : k ≤ j) (hc : k ≤ c) (b : Fin m → ℝ) :
    (s.exchange j c).reflected k b = s.reflected k b :=
  reflectFirst_congr (fun i _ => by rw [leading_exchange]) (fun i hi => axes_exchange hj hc hi) b

theorem Reduced.exchange (h : Reduced a k s) {j c : Fin n} (hj : k ≤ j) (hc : k ≤ c) :
    Reduced a k (s.exchange j c) := by
  refine ⟨fun i hi => ?_, fun l i => ?_⟩
  · rw [axes_exchange hj hc hi, leading_exchange]
    exact h.reflects i hi
  · rw [reflected_exchange hj hc, permutation_exchange, Vec.swap_eq, ← swap_eq_ite, h.column,
      ← Mat.col_apply (s.exchange j c).packed, col_exchange, Mat.col_apply]
    by_cases hl : k ≤ l
    · rw [if_pos (Or.inr hl), if_pos (Or.inr (le_swap hj hc hl))]
    · rw [Equiv.swap_apply_of_ne_of_ne]
      · rintro rfl
        exact hl hj
      · rintro rfl
        exact hl hc

theorem packed_reduceColumn (pivoting : Bool) {j : Fin (min m n)} (size : ℝ) (v : Vec ℝ m)
    (i : Fin m) (c : Fin n) :
    ((s.reflectColumns pivoting j v).finishColumn j size).packed i c =
      if i = pivotRow j ∧ c = pivotColumn j then -size
      else if pivotColumn j < c then reflect v (pivotRow j) (s.packed.col c) i
      else if c = pivotColumn j then v i
      else s.packed i c := by
  change ((s.reflectColumns pivoting j v).packed.set (pivotRow j) (pivotColumn j) (-size)) i c = _
  rw [Mat.set_apply]
  simp only [eq_comm (a := pivotRow j), eq_comm (a := pivotColumn j)]
  congr 1
  rw [← Mat.col_apply]
  unfold reflectColumns
  rw [Mat.col_mapCols]
  split
  · rfl
  · split <;> rfl

theorem leading_reduceColumn (pivoting : Bool) {j : Fin (min m n)} (size : ℝ) (v : Vec ℝ m)
    (i : Fin (min m n)) :
    ((s.reflectColumns pivoting j v).finishColumn j size).leading i =
      if j = i then v (pivotRow j) else s.leading i := by
  change (s.leading.set j ((s.reflectColumns pivoting j v).packed (pivotRow j) (pivotColumn j))) i
    = _
  rw [Vec.set_apply, ← Mat.col_apply]
  unfold reflectColumns
  rw [Mat.col_mapCols, if_neg (lt_irrefl _), if_pos rfl]

/-- The axis of a finished column is the reflector. -/
theorem axes_reduceColumn (pivoting : Bool) {j : Fin (min m n)} (size : ℝ) (v : Vec ℝ m) :
    ((s.reflectColumns pivoting j v).finishColumn j size).axes j =
      axis (pivotRow j) (v (pivotRow j)) v.get := by
  funext i
  unfold axes axis
  rw [leading_reduceColumn, if_pos rfl]
  split
  · rfl
  split
  · rfl
  · rename_i hne
    change ((s.reflectColumns pivoting j v).finishColumn j size).packed i (pivotColumn j) = v i
    rw [packed_reduceColumn, if_neg (fun he => hne he.1), if_neg (lt_irrefl _), if_pos rfl]

/-- Finishing a column does not touch the reflections before it. -/
theorem leading_finishColumn {i j : Fin (min m n)} (hi : i < j) (size : ℝ) :
    (s.finishColumn j size).leading i = s.leading i :=
  (Vec.set_apply _ _ _ _).trans (if_neg hi.ne')

theorem axes_finishColumn {i j : Fin (min m n)} (hi : i < j) (size : ℝ) :
    (s.finishColumn j size).axes i = s.axes i := by
  refine axes_congr (leading_finishColumn hi size) fun r _ => ?_
  refine (Mat.set_apply _ _ _ _ _ _).trans (if_neg ?_)
  rintro ⟨-, he⟩
  exact hi.ne' (Fin.castLE_injective _ he)

theorem reflected_finishColumn (j : Fin (min m n)) (size : ℝ) (b : Fin m → ℝ) :
    (s.finishColumn j size).reflected j b = s.reflected j b :=
  reflectFirst_congr (fun _ hi => leading_finishColumn hi size)
    (fun _ hi => axes_finishColumn hi size) b

/-- Reflecting the columns behind another one does not touch the reflections before it either. -/
theorem axes_reflectColumns (pivoting : Bool) {i j : Fin (min m n)} (hi : i < j) (v : Vec ℝ m) :
    (s.reflectColumns pivoting j v).axes i = s.axes i := by
  have hlt : pivotColumn i < pivotColumn j := hi
  refine axes_congr rfl fun r _ => ?_
  unfold reflectColumns
  rw [← Mat.col_apply, Mat.col_mapCols, if_neg hlt.not_gt, if_neg hlt.ne, Mat.col_apply]

theorem reflected_reflectColumns (pivoting : Bool) (j : Fin (min m n)) (v : Vec ℝ m)
    (b : Fin m → ℝ) : (s.reflectColumns pivoting j v).reflected j b = s.reflected j b :=
  reflectFirst_congr (fun _ _ => rfl) (fun _ hi => axes_reflectColumns pivoting hi v) b

theorem reflected_succ (s : Reduction ℝ m n) (j : Fin (min m n)) (b : Fin m → ℝ) :
    s.reflected (j + 1) b = reflection (s.leading j) (s.axes j) (s.reflected j b) :=
  reflectFirst_succ j b

/-- A column with nothing left is finished without a reflection. -/
theorem Reduced.finishColumn {j : Fin (min m n)} (h : Reduced a j s)
    (hz : tailNorm (s.packed.col (pivotColumn j)) j = 0) :
    Reduced a (j + 1) (s.finishColumn j 0) := by
  have hzero : ∀ i, pivotRow j ≤ i → s.packed i (pivotColumn j) = 0 :=
    fun i hi => eq_zero_of_tailNorm (j := pivotRow j) hz hi
  have hpacked : (s.finishColumn j 0).packed = s.packed := by
    ext i c
    change (s.packed.set (pivotRow j) (pivotColumn j) (-0)) i c = _
    rw [Mat.set_apply]
    split
    · rename_i he
      rw [← he.1, ← he.2, hzero _ le_rfl, neg_zero]
    · rfl
  have hlead : (s.finishColumn j 0).leading j = 0 := by
    change (s.leading.set j (s.packed (pivotRow j) (pivotColumn j))) j = 0
    rw [Vec.set_apply, if_pos rfl, hzero _ le_rfl]
  refine ⟨fun i hi => ?_, fun c i => ?_⟩
  · rcases Nat.lt_succ_iff_lt_or_eq.mp hi with hi | hi
    · rw [axes_finishColumn hi, leading_finishColumn hi]
      exact h.reflects i hi
    · rw [Fin.ext hi, hlead]
      exact Or.inl rfl
  · rw [reflected_succ, hlead, reflection_zero, reflected_finishColumn, hpacked]
    change s.reflected j (a.col (s.permutation c)).get i = _
    rw [h.column]
    by_cases hc : c = pivotColumn j
    · rw [if_pos (Or.inr (hc ▸ le_rfl))]
      by_cases hi : i.val ≤ c
      · rw [if_pos (Or.inl hi)]
      · rw [if_neg (not_or.mpr ⟨hi, by rw [hc]; exact Nat.not_succ_le_self j⟩), hc]
        exact hzero i (by rw [hc] at hi; exact (not_le.mp hi).le)
    · have hne : c.val ≠ j := fun he => hc (Fin.ext he)
      have hiff : j.val ≤ c ↔ j.val + 1 ≤ c := by omega
      simp only [hiff]

/-- A column is finished by the reflection along its own reflector. -/
theorem Reduced.reflectColumns (pivoting : Bool) {j : Fin (min m n)} (h : Reduced a j s)
    {size : ℝ} (hs : IsSize (s.packed.col (pivotColumn j)) (pivotRow j) size) :
    Reduced a (j + 1) ((s.reflectColumns pivoting j
      (reflector (s.packed.col (pivotColumn j)) (pivotRow j) size)).finishColumn j size) := by
  set v := reflector (s.packed.col (pivotColumn j)) (pivotRow j) size with hv
  set s' := (s.reflectColumns pivoting j v).finishColumn j size with hs'
  have hlead : s'.leading j = v (pivotRow j) := by
    rw [hs', leading_reduceColumn, if_pos rfl]
  have haxes : s'.axes j = axis (pivotRow j) (v (pivotRow j)) v.get :=
    axes_reduceColumn pivoting size v
  have hold : ∀ (i : Fin m) (c : Fin n), c < pivotColumn j → s'.packed i c = s.packed i c := by
    intro i c hc
    rw [hs', packed_reduceColumn, if_neg (fun he => hc.ne he.2), if_neg hc.not_gt, if_neg hc.ne]
  refine ⟨fun i hi => ?_, fun c i => ?_⟩
  · rcases Nat.lt_succ_iff_lt_or_eq.mp hi with hi | hi
    · rw [hs', axes_finishColumn hi, axes_reflectColumns pivoting hi, leading_finishColumn hi]
      exact h.reflects i hi
    · rw [Fin.ext hi, hlead, haxes]
      exact hs.reflects
  · have hbefore : s.reflected j (a.col (s'.permutation c)).get =
        fun i : Fin m => if i.val ≤ c ∨ j.val ≤ c then s.packed i c else 0 :=
      funext fun i => h.column c i
    have hreflected (b : Fin m → ℝ) : s'.reflected j b = s.reflected j b := by
      rw [hs', reflected_finishColumn, reflected_reflectColumns]
    rw [reflected_succ, hreflected, hlead, haxes, hbefore]
    rcases lt_trichotomy c (pivotColumn j) with hc | hc | hc
    · have hjc : ¬j.val ≤ c := not_le.mpr hc
      rw [reflection_of_orthogonal, hold i c hc]
      · have hjc' : ¬j.val + 1 ≤ c := fun hle => hjc (Nat.le_of_succ_le hle)
        simp only [hjc, hjc']
      · refine axis_dot _ _ ?_
        intro i hi
        have hij : j.val ≤ i := hi
        have hcj : c.val < j := hc
        rw [if_neg (by omega)]
    · have hcol : (fun i : Fin m => if i.val ≤ c ∨ j.val ≤ c then s.packed i c else 0) =
          (s.packed.col (pivotColumn j)).get := by
        funext i
        rw [if_pos (Or.inr (hc ▸ le_rfl)), hc]
        rfl
      rw [hcol, hv, hs.reflection_apply, hs', packed_reduceColumn, hc]
      rcases lt_trichotomy i (pivotRow j) with hi | hi | hi
      · have hle : i.val ≤ pivotColumn j := hi.le
        rw [if_pos hi, if_pos (Or.inl hle), if_neg (fun he => hi.ne he.1), if_neg (lt_irrefl _),
          if_pos rfl, reflector_apply, if_pos hi]
      · have hle : i.val ≤ pivotColumn j := hi.le
        rw [if_neg hi.not_lt, if_pos hi, if_pos (Or.inl hle), if_pos ⟨hi, rfl⟩]
      · have hle : ¬i.val ≤ pivotColumn j := not_le.mpr hi
        have hj : ¬j.val + 1 ≤ pivotColumn j := Nat.not_succ_le_self j
        rw [if_neg hi.not_gt, if_neg hi.ne', if_neg (not_or.mpr ⟨hle, hj⟩)]
    · have hjc : j.val + 1 ≤ c := hc
      rw [if_pos (Or.inr hjc), hs', packed_reduceColumn, if_neg (fun he => hc.ne' he.2),
        if_pos hc, reflect_get]
      congr 1
      funext i
      rw [if_pos (Or.inr (Nat.le_of_succ_le hjc))]
      rfl

/-- Every column is finished by a reflection or without one. -/
theorem Reduced.reduceColumn (pivoting : Bool) {j : Fin (min m n)} (h : Reduced a j s) :
    Reduced a (j + 1) (s.reduceColumn pivoting j) := by
  unfold Reduction.reduceColumn
  dsimp only
  split
  · rename_i hz
    rw [beq_iff_eq] at hz
    rw [hz]
    exact h.finishColumn hz
  · rename_i hz
    rw [beq_iff_eq] at hz
    exact h.reflectColumns pivoting (isSize_of_tailNorm_ne_zero hz)

theorem Reduced.step (pivoting : Bool) {j : Fin (min m n)} (h : Reduced a j s) :
    Reduced a (j + 1) (s.step pivoting j) := by
  unfold Reduction.step
  dsimp only
  split
  · exact (h.exchange le_rfl (le_largestColumn s (pivotColumn j))).reduceColumn pivoting
  · exact h.reduceColumn pivoting

end Reduction

namespace QR

def axes (f : QR ℝ m n) (j : Fin (min m n)) : Fin m → ℝ :=
  axis (pivotRow j) (f.leading j) (f.packed.col (pivotColumn j)).get

theorem reflectVector_get (f : QR ℝ m n) (b : Vec ℝ m) (j : Fin (min m n)) :
    (f.reflectVector b j).get = reflection (f.leading j) (f.axes j) b.get := by
  have hdot : f.leading j * b (pivotRow j) +
      Arith.sum ((indicesFrom m (j + 1)).map fun i => f.packed i (pivotColumn j) * b i) =
        f.axes j ⬝ᵥ b.get := by
    have hlead : f.axes j (pivotRow j) = f.leading j := by
      unfold axes axis
      rw [if_neg (lt_irrefl _), if_pos rfl]
    have hj : ¬j.val + 1 ≤ (pivotRow j).val := Nat.not_succ_le_self j
    have hmem := Finset.mem_univ (pivotRow j)
    rw [Arith.sum_real, sum_indicesFrom, dotProduct, ← Finset.add_sum_erase _ _ hmem,
      ← Finset.add_sum_erase _ (fun i => f.axes j i * b i) hmem, if_neg hj, zero_add, hlead]
    congr 1
    apply Finset.sum_congr rfl
    intro i hi
    have hne : i ≠ pivotRow j := Finset.ne_of_mem_erase hi
    unfold axes axis
    rcases lt_or_gt_of_ne hne with hlt | hgt
    · have hle : ¬j.val + 1 ≤ i := fun hle => absurd hlt (not_lt.mpr (Nat.le_of_succ_le hle))
      rw [if_neg hle, if_pos hlt, zero_mul]
    · have hle : j.val + 1 ≤ i := hgt
      rw [if_pos hle, if_neg hgt.not_gt, if_neg hne]
      rfl
  unfold reflectVector
  dsimp only
  split
  · rename_i hz
    rw [beq_iff_eq] at hz
    rw [hz, reflection_zero]
  · funext i
    rw [Vec.ofFn_apply, hdot]
    simp only [reflection, Pi.sub_apply, Pi.smul_apply, smul_eq_mul]
    unfold axes axis
    split
    · rw [mul_zero, sub_zero]
    split
    · rename_i he
      rw [he]
      ring
    · rw [Mat.col_apply]
      ring

theorem applyTranspose_get (f : QR ℝ m n) (b : Vec ℝ m) :
    (f.applyTranspose b).get = reflectFirst f.leading.get f.axes (min m n) b.get := by
  refine foldl_finRange_invariant f.reflectVector
    (fun k s => s.get = reflectFirst f.leading.get f.axes k b.get) rfl fun j s hs => ?_
  rw [reflectVector_get, hs, reflectFirst_succ]

theorem reduced_factorize (pivoting : Bool) (a : Mat ℝ m n) :
    ∃ s : Reduction ℝ m n, Reduction.Reduced a (min m n) s ∧
      (factorize pivoting a).packed = s.packed ∧ (factorize pivoting a).leading = s.leading ∧
      (factorize pivoting a).permutation = s.permutation :=
  ⟨_, foldl_finRange_invariant (Reduction.step pivoting) (Reduction.Reduced a)
    (Reduction.Reduced.start a) (fun _ _ h => h.step pivoting), rfl, rfl, rfl⟩

variable (pivoting : Bool) (a : Mat ℝ m n)

theorem applyTranspose_dot (b c : Vec ℝ m) :
    ((factorize pivoting a).applyTranspose b).get ⬝ᵥ ((factorize pivoting a).applyTranspose c).get =
      b.get ⬝ᵥ c.get := by
  obtain ⟨s, hs, hp, hl, -⟩ := reduced_factorize pivoting a
  rw [applyTranspose_get, applyTranspose_get]
  refine reflectFirst_dot (fun j hj => ?_) b.get c.get
  unfold axes
  rw [hp, hl]
  exact hs.reflects j hj

/-- The transposed orthogonal factor takes the permuted columns of the given matrix to those of
the triangular factor. -/
theorem applyTranspose_col (c : Fin n) (i : Fin m) :
    (factorize pivoting a).applyTranspose (a.col ((factorize pivoting a).permutation c)) i =
      if i.val ≤ c then (factorize pivoting a).packed i c else 0 := by
  obtain ⟨s, hs, hp, hl, hperm⟩ := reduced_factorize pivoting a
  have hcol := hs.column c i
  have hiff : i.val ≤ c ∨ min m n ≤ c ↔ i.val ≤ c := by omega
  simp only [hiff] at hcol
  rw [applyTranspose_get, hperm, hp, ← hcol]
  unfold axes
  rw [hp, hl]
  rfl

end QR

end LeastSquares
