import LeastSquares.Proofs.Substitution
import LeastSquares.Proofs.SurvivingTriangle

namespace LeastSquares

variable {m n : Nat}

namespace Rotation

theorem quarter_sum_pos (x : ℝ) : 0 < 0.25 + 0.25 * x * x := by
  have := mul_self_nonneg x
  norm_num
  nlinarith

theorem half_div_sqrt_sq (x : ℝ) :
    (0.5 / √(0.25 + 0.25 * x * x)) ^ 2 * (1 + x ^ 2) = 1 := by
  have hpos := quarter_sum_pos x
  rw [div_pow, Real.sq_sqrt hpos.le]
  have hne : (0.25 + 0.25 * x * x : ℝ) ≠ 0 := hpos.ne'
  field_simp
  norm_num

theorem eliminating_sq (a : ℝ) {b : ℝ} :
    (eliminating a b).cos ^ 2 + (eliminating a b).sin ^ 2 = 1 := by
  unfold eliminating
  split
  · have := half_div_sqrt_sq (a / b)
    simp only [Arith.sqrt_real]
    linarith
  · have := half_div_sqrt_sq (b / a)
    simp only [Arith.sqrt_real]
    linarith

theorem eliminating_eliminates {a b : ℝ} (hb : b ≠ 0) :
    -(eliminating a b).sin * a + (eliminating a b).cos * b = 0 := by
  unfold eliminating
  split
  · dsimp only
    rw [mul_assoc _ (a / b) b, div_mul_cancel₀ _ hb]
    ring
  · rename_i h
    have ha : a ≠ 0 := by
      rintro rfl
      exact h (by simpa using hb)
    dsimp only
    rw [neg_mul, mul_assoc _ (b / a) a, div_mul_cancel₀ _ ha]
    ring

end Rotation

/-- Rotating one component of two vectors against two more keeps the inner product. -/
theorem rotate_dot {c s : ℝ} (h : c ^ 2 + s ^ 2 = 1) (x y : Fin n → ℝ) (u v : ℝ) (k : Fin n) :
    Function.update x k (c * x k + s * u) ⬝ᵥ Function.update y k (c * y k + s * v) +
        (-s * x k + c * u) * (-s * y k + c * v) =
      x ⬝ᵥ y + u * v := by
  have hmem := Finset.mem_univ k
  have hrest : ∑ i ∈ Finset.univ.erase k, Function.update x k (c * x k + s * u) i *
      Function.update y k (c * y k + s * v) i = ∑ i ∈ Finset.univ.erase k, x i * y i := by
    apply Finset.sum_congr rfl
    intro i hi
    have hne := Finset.ne_of_mem_erase hi
    rw [Function.update_of_ne hne, Function.update_of_ne hne]
  rw [dotProduct, dotProduct, ← Finset.add_sum_erase _ _ hmem, hrest,
    ← Finset.add_sum_erase _ (fun i => x i * y i) hmem, Function.update_self, Function.update_self]
  linear_combination (x k * y k + u * v) * h

namespace Elimination

/-- Column `c` of the triangle that is becoming `S`. The diagonal elements of the first `done` rows
are kept apart already. -/
def column (e : Elimination ℝ n) (done : Nat) (c : Fin n) : Fin n → ℝ :=
  fun i => if i = c then (if i.val < done then e.row i else e.square i i)
    else if i < c then e.square c i else 0

/-- What is left of the row after its first `k` components are eliminated. -/
def pending (e : Elimination ℝ n) (k : Nat) : Fin n → ℝ :=
  fun i => if k ≤ i.val then e.row i else 0

section Rotate

variable {e : Elimination ℝ n} {j : Nat} {k : Fin n}

theorem column_rotate (hj : j ≤ k) (hk : e.row k ≠ 0) (c : Fin n) :
    (e.rotate k).column j c =
      Function.update (e.column j c) k
        ((Rotation.eliminating (e.square k k) (e.row k)).cos * e.column j c k +
          (Rotation.eliminating (e.square k k) (e.row k)).sin * e.pending k c) := by
  set g := Rotation.eliminating (e.square k k) (e.row k) with hg
  have hsquare : ∀ i l : Fin n, (e.rotate k).square i l =
      if k = l then (if k ≤ i then g.cos * e.square i k + g.sin * e.row i else e.square i k)
      else e.square i l := by
    intro i l
    unfold rotate
    rw [if_neg (by simpa using hk)]
    change (e.square.setCol k _) i l = _
    rw [Mat.setCol_apply, Vec.ofFn_apply]
  have hrow : ∀ i : Fin n, i < k → (e.rotate k).row i = e.row i := by
    intro i hi
    unfold rotate
    rw [if_neg (by simpa using hk)]
    change (Vec.ofFn _ : Vec ℝ n) i = _
    rw [Vec.ofFn_apply, if_neg hi.not_gt]
  funext i
  unfold column pending
  rcases eq_or_ne i k with rfl | hne
  · rw [Function.update_self, hsquare, hsquare, if_pos rfl, if_pos rfl, if_neg hj.not_gt,
      if_neg hj.not_gt, if_pos le_rfl]
    rcases lt_trichotomy i c with hlt | rfl | hgt
    · have hle : i.val ≤ c := hlt.le
      rw [if_neg hlt.ne, if_neg hlt.ne, if_pos hlt, if_pos hlt, if_pos hlt.le, if_pos hle]
    · rw [if_pos rfl, if_pos rfl, if_pos le_rfl]
    · have hle : ¬i.val ≤ c := not_le.mpr hgt
      rw [if_neg hgt.ne', if_neg hgt.ne', if_neg hgt.not_gt, if_neg hgt.not_gt, if_neg hle,
        mul_zero, mul_zero, add_zero]
  · rw [Function.update_of_ne hne, hsquare, hsquare, if_neg hne.symm, if_neg hne.symm]
    rcases eq_or_ne i c with rfl | hc
    · rw [if_pos rfl, if_pos rfl]
      split
      · rename_i hlt
        exact hrow i (Nat.lt_of_lt_of_le hlt hj)
      · rfl
    · rw [if_neg hc, if_neg hc]

theorem pending_rotate (hj : j ≤ k) (hk : e.row k ≠ 0) (c : Fin n) :
    (e.rotate k).pending (k + 1) c =
      -(Rotation.eliminating (e.square k k) (e.row k)).sin * e.column j c k +
        (Rotation.eliminating (e.square k k) (e.row k)).cos * e.pending k c := by
  unfold pending column
  rcases lt_trichotomy k c with hlt | rfl | hgt
  · have hle : k.val + 1 ≤ c := hlt
    rw [if_pos hle, if_neg hlt.ne, if_pos hlt, if_pos (Nat.le_of_succ_le hle)]
    unfold rotate
    rw [if_neg (by simpa using hk)]
    change (Vec.ofFn _ : Vec ℝ n) c = _
    rw [Vec.ofFn_apply, if_pos hlt]
  · rw [if_neg (Nat.not_succ_le_self _), if_pos rfl, if_neg hj.not_gt, if_pos le_rfl,
      Rotation.eliminating_eliminates hk]
  · have hle : ¬k.val ≤ c := not_le.mpr hgt
    rw [if_neg (fun h => hle (Nat.le_of_succ_le h)), if_neg hgt.ne', if_neg hgt.not_gt, if_neg hle,
      mul_zero, mul_zero, add_zero]

end Rotate

/-- What a sweep over row `j` with the diagonal element `d` keeps, after the first `k` components of
the row are eliminated. -/
structure Swept (before : Elimination ℝ n) (j : Fin n) (d : ℝ) (k : Nat) (e : Elimination ℝ n) :
    Prop where
  gram : ∀ a b, e.column j a ⬝ᵥ e.column j b + e.pending k a * e.pending k b =
    before.column j a ⬝ᵥ before.column j b +
      (Pi.single j d : Fin n → ℝ) a * (Pi.single j d : Fin n → ℝ) b
  rhs : ∀ a, e.column j a ⬝ᵥ e.rotated.get + e.pending k a * e.carry =
    before.column j a ⬝ᵥ before.rotated.get
  diagonal : ∀ c, |before.column j c c| ≤ |e.column j c c|
  above : ∀ i c, i < c → e.square i c = before.square i c
  finished : ∀ i, i < j → e.square i i = before.square i i

section Swept

variable {before e : Elimination ℝ n} {j : Fin n} {d : ℝ}

theorem Swept.start (before : Elimination ℝ n) (j : Fin n) (d : ℝ) :
    Swept before j d j
      { before with
        row := .ofFn fun k => if k < j then before.row k else if k = j then d else 0
        carry := 0 } := by
  set e : Elimination ℝ n :=
    { before with
      row := .ofFn fun k => if k < j then before.row k else if k = j then d else 0
      carry := 0 } with he
  have hrow : ∀ i, e.row i = if i < j then before.row i else if i = j then d else 0 :=
    fun i => Vec.ofFn_apply _ i
  have hcolumn : ∀ c, e.column j c = before.column j c := by
    intro c
    funext i
    unfold column
    congr 1
    split
    · rename_i hi
      rw [hrow, if_pos (Fin.lt_def.mpr hi)]
    · rfl
  have hpending : e.pending j = Pi.single j d := by
    funext i
    unfold pending
    rw [hrow]
    rcases lt_trichotomy i j with hlt | rfl | hgt
    · have hle : ¬j.val ≤ i := not_le.mpr hlt
      rw [if_neg hle, Pi.single_eq_of_ne hlt.ne]
    · rw [if_pos le_rfl, if_neg (lt_irrefl i), if_pos rfl, Pi.single_eq_same]
    · have hle : j.val ≤ i := hgt.le
      rw [if_pos hle, if_neg hgt.not_gt, if_neg hgt.ne', Pi.single_eq_of_ne hgt.ne']
  refine ⟨fun a b => ?_, fun a => ?_, fun c => ?_, fun _ _ _ => rfl, fun _ _ => rfl⟩
  · rw [hcolumn, hcolumn, hpending]
  · rw [hcolumn, he, mul_zero, add_zero]
  · rw [hcolumn]

theorem Swept.rotate {k : Fin n} (h : Swept before j d k e) (hj : j.val ≤ k) :
    Swept before j d (k + 1) (e.rotate k) := by
  have kept : (e.rotate k).Restores before.square j := Restores.rotate ⟨h.above, h.finished⟩ hj
  obtain ⟨above, finished⟩ := kept
  by_cases hk : e.row k = 0
  · have hsame : e.rotate k = e := by
      unfold Elimination.rotate
      rw [if_pos (by simpa using hk)]
    have hpending : ∀ c, e.pending (k + 1) c = e.pending k c := by
      intro c
      unfold pending
      rcases eq_or_ne c k with rfl | hne
      · rw [if_neg (Nat.not_succ_le_self _), if_pos le_rfl, hk]
      · have hne' : c.val ≠ k := fun he => hne (Fin.ext he)
        have hiff : k.val + 1 ≤ c ↔ k.val ≤ c := by omega
        simp only [hiff]
    rw [hsame] at above finished ⊢
    refine ⟨fun a b => ?_, fun a => ?_, h.diagonal, above, finished⟩
    · rw [hpending, hpending]
      exact h.gram a b
    · rw [hpending]
      exact h.rhs a
  · have hsq := Rotation.eliminating_sq (e.square k k) (b := e.row k)
    have hcol := column_rotate hj hk
    have hpend := pending_rotate hj hk
    set g := Rotation.eliminating (e.square k k) (e.row k) with hg
    have hrotated : (e.rotate k).rotated.get =
        Function.update e.rotated.get k (g.cos * e.rotated k + g.sin * e.carry) := by
      funext i
      unfold Elimination.rotate
      rw [if_neg (by simpa using hk)]
      change e.rotated.set k _ i = _
      rw [Vec.set_apply, Function.update_apply]
      simp only [eq_comm (a := k)]
      rfl
    have hcarry : (e.rotate k).carry = -g.sin * e.rotated k + g.cos * e.carry := by
      unfold Elimination.rotate
      rw [if_neg (by simpa using hk)]
    refine ⟨fun a b => ?_, fun a => ?_, fun c => ?_, above, finished⟩
    · rw [hcol, hcol, hpend, hpend, rotate_dot hsq]
      exact h.gram a b
    · rw [hcol, hpend, hrotated, hcarry]
      have := rotate_dot hsq (e.column j a) e.rotated.get (e.pending k a) e.carry k
      exact this.trans (h.rhs a)
    · refine (h.diagonal c).trans ?_
      rw [hcol]
      rcases eq_or_ne c k with rfl | hne
      · have hzero : 0 = -g.sin * e.column j c c + g.cos * e.pending c c :=
          (if_neg (Nat.not_succ_le_self _)).symm.trans (hpend c)
        have hlength : (g.cos * e.column j c c + g.sin * e.pending c c) ^ 2 =
            e.column j c c ^ 2 + e.pending c c ^ 2 := by
          linear_combination (e.column j c c ^ 2 + e.pending c c ^ 2) * hsq +
            (-g.sin * e.column j c c + g.cos * e.pending c c) * hzero
        rw [Function.update_self, ← sq_le_sq, hlength]
        exact le_add_of_nonneg_right (sq_nonneg _)
      · rw [Function.update_of_ne hne]

theorem swept_eliminateRow (before : Elimination ℝ n) (j : Fin n) (d : ℝ) :
    Swept before j d n (before.eliminateRow j d) := by
  unfold eliminateRow
  split
  · rename_i hd
    rw [beq_iff_eq] at hd
    have hpending : before.pending n = 0 := by
      funext i
      exact if_neg (not_le.mpr i.isLt)
    refine ⟨fun a b => ?_, fun a => ?_, fun _ => le_rfl, fun _ _ _ => rfl, fun _ _ => rfl⟩
    · rw [hpending, hd, Pi.single_zero]
    · rw [hpending, Pi.zero_apply, zero_mul, add_zero]
  · exact foldl_indicesFrom_invariant Elimination.rotate (Swept before j d) j.isLt.le
      (Swept.start before j d) fun _ _ hk h => h.rotate hk

end Swept

/-- What the elimination of the first `done` rows of a diagonal matrix keeps. The factor `f` stays
in the upper triangle, and its diagonal in the finished rows. -/
structure Eliminated (f : Triangular ℝ m n) (w b : Vec ℝ n) (done : Nat) (e : Elimination ℝ n) :
    Prop where
  gram : ∀ c d, e.column done c ⬝ᵥ e.column done d = f.r.toMatrix.col c ⬝ᵥ f.r.toMatrix.col d +
    if c = d ∧ c < done then w (f.permutation c) ^ 2 else 0
  rhs : ∀ c, e.column done c ⬝ᵥ e.rotated.get = f.r.toMatrix.col c ⬝ᵥ b.get
  diagonal : ∀ c, |f.square c c| ≤ |e.column done c c|
  above : ∀ i c, i < c → e.square i c = f.square i c
  finished : ∀ i : Fin n, i < done → e.square i i = f.square i i

section Eliminated

variable {f : Triangular ℝ m n} {w b : Vec ℝ n}

theorem Eliminated.start (f : Triangular ℝ m n) (w b row : Vec ℝ n) (carry : ℝ) :
    Eliminated f w b 0 { square := symmetrized f.square, row, rotated := b, carry } := by
  set e : Elimination ℝ n := { square := symmetrized f.square, row, rotated := b, carry } with he
  have hcolumn : ∀ c, e.column 0 c = f.r.toMatrix.col c := by
    intro c
    funext i
    change (if i = c then (if i.val < 0 then row i else symmetrized f.square i i)
      else if i < c then symmetrized f.square c i else 0) = f.r.toMatrix i c
    rcases lt_trichotomy i c with hlt | rfl | hgt
    · rw [if_neg hlt.ne, if_pos hlt, (symmetrized_apply hlt.le).2, f.r_apply hlt.le]
    · rw [if_pos rfl, if_neg (Nat.not_lt_zero i), (symmetrized_apply le_rfl).1, f.r_apply le_rfl]
    · rw [if_neg hgt.ne', if_neg hgt.not_gt, f.isUpper_r i c hgt]
  refine ⟨fun c d => ?_, fun c => ?_, fun c => ?_, fun i c hi => ?_, fun i hi => ?_⟩
  · rw [hcolumn, hcolumn, if_neg (fun h => absurd h.2 (Nat.not_lt_zero c)), add_zero]
  · rw [hcolumn]
  · rw [hcolumn, Matrix.col_apply, f.r_apply le_rfl]
  · exact (symmetrized_apply hi.le).1
  · exact absurd hi (Nat.not_lt_zero i)

theorem diagonal_succ (j : Fin n) (x : Fin n → ℝ) (c d : Fin n) :
    (if c = d ∧ c < j.val then x c ^ 2 else 0) +
        (Pi.single j (x j) : Fin n → ℝ) c * (Pi.single j (x j) : Fin n → ℝ) d =
      if c = d ∧ c < j.val + 1 then x c ^ 2 else 0 := by
  simp only [Pi.single_apply]
  by_cases hcd : c = d
  · rw [← hcd]
    rcases lt_trichotomy c j with hlt | rfl | hgt
    · have hc : c.val < j := hlt
      rw [if_neg hlt.ne, if_pos ⟨rfl, hc⟩, if_pos ⟨rfl, Nat.lt_succ_of_lt hc⟩, mul_zero, add_zero]
    · rw [if_pos rfl, if_neg (fun h => lt_irrefl _ h.2), if_pos ⟨rfl, Nat.lt_succ_self _⟩,
        zero_add, pow_two]
    · have hc : ¬c.val < j + 1 := by
        rw [Nat.lt_succ_iff, not_le]
        exact hgt
      have hc' : ¬(c = c ∧ c.val < j) := fun h => hc (Nat.lt_succ_of_lt h.2)
      rw [if_neg hc', if_neg hgt.ne', if_neg (fun h => hc h.2), mul_zero, add_zero]
  · have hnot : ∀ k : Nat, ¬(c = d ∧ c.val < k) := fun _ h => hcd h.1
    rw [if_neg (hnot _), if_neg (hnot _), zero_add]
    rcases eq_or_ne c j with rfl | hne
    · rw [if_neg (Ne.symm hcd), mul_zero]
    · rw [if_neg hne, zero_mul]

theorem Eliminated.finishRow {e : Elimination ℝ n} {j : Fin n} {diagonal : Vec ℝ n}
    (h : Eliminated f w b j e) (hd : diagonal j = f.square j j) :
    Eliminated f w b (j + 1) (e.finishRow diagonal w f.permutation j) := by
  have hs := swept_eliminateRow e j (w (f.permutation j))
  set e' := e.eliminateRow j (w (f.permutation j)) with he'
  set e'' := e.finishRow diagonal w f.permutation j with he''
  have hsquare : ∀ i c, e''.square i c = if j = i ∧ j = c then diagonal j else e'.square i c :=
    fun i c => Mat.set_apply _ j i j c _
  have hrow : ∀ i, e''.row i = if j = i then e'.square j j else e'.row i :=
    fun i => Vec.set_apply _ j i _
  have hcolumn : ∀ c, e''.column (j + 1) c = e'.column j c := by
    intro c
    funext i
    unfold column
    rcases eq_or_ne i c with rfl | hne
    · rw [if_pos rfl, if_pos rfl, hrow, hsquare]
      rcases lt_trichotomy i j with hlt | rfl | hgt
      · have hij : i.val < j := hlt
        rw [if_pos (Nat.lt_succ_of_lt hij), if_pos hij, if_neg hlt.ne']
      · rw [if_pos (Nat.lt_succ_self _), if_pos rfl, if_neg (lt_irrefl _)]
      · have hij : ¬i.val < j + 1 := by
          rw [Nat.lt_succ_iff, not_le]
          exact hgt
        rw [if_neg hij, if_neg (fun h => hij (Nat.lt_succ_of_lt h)), if_neg (fun h => hgt.ne h.1)]
    · have hji : ¬(j = c ∧ j = i) := fun he => hne (he.2.symm.trans he.1)
      rw [if_neg hne, if_neg hne, hsquare, if_neg hji]
  have hpending : e'.pending n = 0 := by
    funext i
    exact if_neg (not_le.mpr i.isLt)
  refine ⟨fun c d => ?_, fun c => ?_, fun c => ?_, fun i c hi => ?_, fun i hi => ?_⟩
  · have hg := hs.gram c d
    rw [hpending, Pi.zero_apply, Pi.zero_apply, mul_zero, add_zero, h.gram c d] at hg
    rw [hcolumn, hcolumn, hg, add_assoc]
    exact congrArg _ (diagonal_succ j (fun c => w (f.permutation c)) c d)
  · have hr := hs.rhs c
    rw [hpending, Pi.zero_apply, zero_mul, add_zero, h.rhs c] at hr
    rw [hcolumn]
    exact hr
  · rw [hcolumn]
    exact (h.diagonal c).trans (hs.diagonal c)
  · rw [hsquare, if_neg (fun he => hi.ne (he.1.symm.trans he.2)), hs.above i c hi, h.above i c hi]
  · rw [hsquare]
    split
    · rename_i he
      rw [hd, he.1]
    · rename_i hne
      have hij : i < j := by
        refine lt_of_le_of_ne (Nat.lt_succ_iff.mp hi) ?_
        rintro rfl
        exact hne ⟨rfl, rfl⟩
      rw [hs.finished i hij, h.finished i hij]

end Eliminated

end Elimination

/-- What is left of a triangular `R` when a diagonal matrix with elements `w` is eliminated against
it: a triangular `S` with the square of both, and a right-hand side with the same gradient. -/
structure Damps (t : Matrix (Fin n) (Fin n) ℝ) (w b : Fin n → ℝ) (s : Matrix (Fin n) (Fin n) ℝ)
    (r : Fin n → ℝ) : Prop where
  upper : IsUpper s
  gram : s.transpose * s = t.transpose * t + Matrix.diagonal fun c => w c ^ 2
  gradient : s.transpose.mulVec r = t.transpose.mulVec b
  diagonal : ∀ c, |t c c| ≤ |s c c|

namespace Triangular

noncomputable def damped (f : Triangular ℝ m n) (w b row : Vec ℝ n) : Matrix (Fin n) (Fin n) ℝ :=
  upperOf (f.solveDamped w b row).diagonal (f.solveDamped w b row).factor.square

theorem eliminated_solveDamped (f : Triangular ℝ m n) (w b row : Vec ℝ n) :
    ∃ e : Elimination ℝ n, Elimination.Eliminated f w b n e ∧
      (f.solveDamped w b row).factor = f.withSquare e.square ∧
      (f.solveDamped w b row).diagonal = e.row ∧
      (f.solveDamped w b row).permuted = solveDampedTriangle e.square e.row e.rotated
        (firstIndex fun j => negligible (e.row j)) :=
  ⟨_, foldl_finRange_invariant
    (Elimination.finishRow (.ofFn fun j => f.square j j) w f.permutation)
    (Elimination.Eliminated f w b) (Elimination.Eliminated.start f w b row 0)
    (fun j _ h => h.finishRow (Vec.ofFn_apply _ j)), rfl, rfl, rfl⟩

/-- The damped solve is a solve with a damped triangle. -/
theorem solveDamped_solves (f : Triangular ℝ m n) (w b row : Vec ℝ n) :
    ∃ r, Damps f.r.toMatrix (fun c => w (f.permutation c)) b.get (f.damped w b row) r ∧
      SolvesLeading (f.damped w b row)
        (firstIndex fun j => negligible (f.damped w b row j j)) r
        (f.solveDamped w b row).permuted.get := by
  obtain ⟨e, he, hfactor, hdiagonal, hpermuted⟩ := f.eliminated_solveDamped w b row
  have hdamped : f.damped w b row = upperOf e.row e.square := by
    rw [damped, hfactor, hdiagonal, square_withSquare]
  have hcol : ∀ c, (upperOf e.row e.square).col c = e.column n c := by
    intro c
    funext i
    change (if i = c then e.row i else if i < c then e.square c i else 0) = e.column n c i
    unfold Elimination.column
    rw [if_pos i.isLt]
  have hdiag : ∀ j, upperOf e.row e.square j j = e.row j := fun j => if_pos rfl
  rw [hdamped, hpermuted]
  simp only [hdiag]
  refine ⟨e.rotated.get, ⟨isUpper_upperOf _ _, ?_, ?_, fun c => ?_⟩, ?_⟩
  · ext c d
    rw [Matrix.add_apply, Matrix.diagonal_apply]
    change (upperOf e.row e.square).col c ⬝ᵥ (upperOf e.row e.square).col d =
      f.r.toMatrix.col c ⬝ᵥ f.r.toMatrix.col d + _
    rw [hcol, hcol, he.gram]
    simp only [c.isLt, and_true]
  · funext c
    change (upperOf e.row e.square).col c ⬝ᵥ e.rotated.get = f.r.toMatrix.col c ⬝ᵥ b.get
    rw [hcol, he.rhs]
  · have := he.diagonal c
    rw [← hcol, Matrix.col_apply] at this
    rw [f.r_apply le_rfl]
    exact this
  · refine solveDampedTriangle_solves e.square (firstIndex_le _) ?_
    intro j hj hz
    have hn := not_of_lt_firstIndex hj
    rw [negligible, hz] at hn
    simp [Arith.epsilon_pos.le] at hn

theorem r_solveDamped (f : Triangular ℝ m n) (w b row : Vec ℝ n) :
    (f.solveDamped w b row).factor.r = f.r := by
  obtain ⟨e, he, hfactor, -, -⟩ := f.eliminated_solveDamped w b row
  rw [hfactor]
  ext i j
  unfold Triangular.r
  rw [Mat.ofFn_apply, Mat.ofFn_apply, square_withSquare]
  split
  · rename_i hij
    rcases hij.eq_or_lt with rfl | hlt
    · exact he.finished i i.isLt
    · exact he.above i j hlt
  · rfl

end Triangular

end LeastSquares
