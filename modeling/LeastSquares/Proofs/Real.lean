import LeastSquares.Householder
import LeastSquares.Settings
import Mathlib.Analysis.InnerProductSpace.PiL2

namespace LeastSquares

variable {m n : Nat}

/-- Named for the reals, so that it comes before the operation of an arithmetic. -/
noncomputable instance divReal : Div ℝ := DivInvMonoid.toDiv

noncomputable instance ofScientificReal : OfScientific ℝ := NNRatCast.toOfScientific

noncomputable instance beqReal : BEq ℝ := instBEqOfDecidableEq

/-- Named, so that the numeral two is the same term in the definitions of every module. -/
instance atLeastTwo : Nat.AtLeastTwo 2 := inferInstance

noncomputable instance : Arith ℝ where
  decLt := inferInstance
  decLe := inferInstance
  abs x := |x|
  sqrt := Real.sqrt
  isFinite _ := true
  epsilon := 2 ^ (-52 : ℤ)
  minPositive := 2 ^ (-1022 : ℤ)
  maxFinite := (2 - 2 ^ (-52 : ℤ)) * 2 ^ 1023

class RealNorm where
  norm : List ℝ → ℝ
  nonneg : ∀ xs, 0 ≤ norm xs

noncomputable instance [RealNorm] : Scalar ℝ where
  norm := RealNorm.norm

noncomputable instance (priority := low) RealNorm.euclidean : RealNorm where
  norm xs := √(xs.map (· ^ 2)).sum
  nonneg _ := Real.sqrt_nonneg _

theorem zero_le_norm [RealNorm] (v : Vec ℝ n) : 0 ≤ norm v :=
  RealNorm.nonneg _

namespace Arith

@[simp] theorem abs_real (x : ℝ) : Arith.abs x = |x| := rfl

@[simp] theorem sqrt_real (x : ℝ) : Arith.sqrt x = √x := rfl

@[simp] theorem isFinite_real (x : ℝ) : Arith.isFinite x = true := rfl

theorem epsilon_pos : (0 : ℝ) < Arith.epsilon :=
  zpow_pos two_pos _

theorem epsilon_lt_one : (Arith.epsilon : ℝ) < 1 := by
  change (2 : ℝ) ^ (-52 : ℤ) < 1
  norm_num

theorem minPositive_pos : (0 : ℝ) < Arith.minPositive :=
  zpow_pos two_pos _

@[simp] theorem maxNum_real (a b : ℝ) : maxNum a b = max a b := by
  unfold maxNum
  rw [if_pos (beq_self_eq_true a), max_def]

@[simp] theorem minNum_real (a b : ℝ) : minNum a b = min a b := by
  unfold minNum
  rw [if_pos (beq_self_eq_true a), min_comm, min_def]

@[simp] theorem sum_real (xs : List ℝ) : Arith.sum xs = xs.sum := by
  unfold Arith.sum
  rw [List.sum_eq_foldl, neg_zero]

end Arith

theorem Tuning.error?_standard : (Tuning.standard : Tuning ℝ).error? = none := by
  unfold Tuning.error? Tuning.standard
  norm_num

theorem Settings.error?_standard (h : 0 < n) (hmn : n ≤ m) :
    (Settings.standard : Settings ℝ).error? m n = none := by
  unfold Settings.error? Settings.toleranceError? isTolerance isFactor
  simp [h.ne', hmn.not_gt, Settings.standard, Settings.standardTolerance, Scaling.error?,
    Tuning.error?_standard]
  norm_num

structure Bands.Nonneg (b : Bands ℝ) : Prop where
  largest : 0 ≤ b.largest
  largestSmall : 0 ≤ b.largestSmall

theorem Bands.Nonneg.add {b : Bands ℝ} (h : b.Nonneg) (lower upper : ℝ) {x : ℝ} (hx : 0 ≤ x) :
    (b.add lower upper x).Nonneg := by
  obtain ⟨largest, largestSmall⟩ := h
  unfold Bands.add
  split
  · exact ⟨largest, largestSmall⟩
  split
  · split
    · exact ⟨largest, hx⟩
    split
    · exact ⟨largest, largestSmall⟩
    · exact ⟨largest, largestSmall⟩
  split
  · exact ⟨hx, largestSmall⟩
  · exact ⟨largest, largestSmall⟩

theorem Bands.Nonneg.foldl {b : Bands ℝ} (h : b.Nonneg) (lower upper : ℝ) (xs : List ℝ) :
    (xs.foldl (fun b x => b.add lower upper (Arith.abs x)) b).Nonneg := by
  induction xs generalizing b with
  | nil => exact h
  | cons x xs ih => exact ih (h.add lower upper (abs_nonneg x))

theorem bandedNorm_nonneg (xs : List ℝ) : 0 ≤ bandedNorm xs := by
  unfold bandedNorm
  split
  · exact le_rfl
  · have hempty : (Bands.empty : Bands ℝ).Nonneg := ⟨le_rfl, le_rfl⟩
    obtain ⟨largest, largestSmall⟩ := hempty.foldl smallBound (largeBound xs.length) xs
    unfold Bands.total
    split
    · exact mul_nonneg largest (Real.sqrt_nonneg _)
    split
    · split <;> exact Real.sqrt_nonneg _
    · exact mul_nonneg largestSmall (Real.sqrt_nonneg _)

/-- The norm that the library computes. -/
noncomputable abbrev RealNorm.banded : RealNorm where
  norm := bandedNorm
  nonneg := bandedNorm_nonneg

theorem sum_map_filter_finRange (p : Fin n → Bool) (f : Fin n → ℝ) :
    (((List.finRange n).filter p).map f).sum = ∑ i, if p i then f i else 0 := by
  rw [Fin.sum_univ_def]
  induction List.finRange n with
  | nil => rfl
  | cons i is ih =>
    rw [List.filter_cons, List.map_cons, List.sum_cons, ← ih]
    split <;> simp

@[simp] theorem sum_indicesFrom (f : Fin n → ℝ) (j : Nat) :
    ((indicesFrom n j).map f).sum = ∑ i, if j ≤ i.val then f i else 0 := by
  simpa [indicesFrom] using sum_map_filter_finRange (fun i => decide (j ≤ i.val)) f

@[simp] theorem sum_indicesBelow (f : Fin n → ℝ) (j : Nat) :
    ((indicesBelow n j).map f).sum = ∑ i, if i.val < j then f i else 0 := by
  simpa [indicesBelow] using sum_map_filter_finRange (fun i => decide (i.val < j)) f

noncomputable def length (v : Fin n → ℝ) : ℝ :=
  ‖WithLp.toLp 2 v‖

theorem length_nonneg (v : Fin n → ℝ) : 0 ≤ length v :=
  norm_nonneg _

theorem length_eq_zero {v : Fin n → ℝ} : length v = 0 ↔ v = 0 :=
  norm_eq_zero.trans (WithLp.toLp_eq_zero 2)

theorem length_pos {v : Fin n → ℝ} : 0 < length v ↔ v ≠ 0 :=
  (length_nonneg v).lt_iff_ne'.trans length_eq_zero.not

@[simp] theorem length_zero : length (0 : Fin n → ℝ) = 0 :=
  norm_zero

theorem length_sq (v : Fin n → ℝ) : length v ^ 2 = v ⬝ᵥ v := by
  rw [length, EuclideanSpace.real_norm_sq_eq, dotProduct]
  exact Finset.sum_congr rfl fun i _ => pow_two _

theorem length_eq_sqrt (v : Fin n → ℝ) : length v = √(v ⬝ᵥ v) := by
  rw [← length_sq, Real.sqrt_sq (length_nonneg v)]

theorem length_neg (v : Fin n → ℝ) : length (-v) = length v := by
  rw [length_eq_sqrt, length_eq_sqrt, neg_dotProduct_neg]

theorem length_add_sq (u v : Fin n → ℝ) :
    length (u + v) ^ 2 = length u ^ 2 + 2 * (u ⬝ᵥ v) + length v ^ 2 := by
  rw [length_sq, length_sq, length_sq, add_dotProduct, dotProduct_add, dotProduct_add,
    dotProduct_comm v u]
  ring

theorem dot_le_length (x y : Fin n → ℝ) : x ⬝ᵥ y ≤ length x * length y := by
  have h := Real.sum_mul_le_sqrt_mul_sqrt Finset.univ x y
  rw [length_eq_sqrt, length_eq_sqrt, dotProduct, dotProduct, dotProduct]
  simpa only [pow_two] using h

theorem abs_dot_le_length (x y : Fin n → ℝ) : |x ⬝ᵥ y| ≤ length x * length y := by
  have hneg := dot_le_length (-x) y
  rw [neg_dotProduct, length_neg] at hneg
  exact abs_le'.mpr ⟨dot_le_length x y, hneg⟩

theorem norm_eq_length (v : Vec ℝ n) : norm v = length v.get := by
  rw [length_eq_sqrt]
  change √((v.toList.map (· ^ 2)).sum) = _
  rw [Vec.toList, List.map_map, ← Fin.sum_univ_def, dotProduct]
  congr 1
  exact Finset.sum_congr rfl fun i _ => pow_two _

theorem norm_pos_of_ne_zero {v : Vec ℝ n} (h : v.get ≠ 0) : 0 < norm v := by
  rw [norm_eq_length]
  exact length_pos.mpr h

theorem Vec.get_neg (x : Vec ℝ n) : (x.map (-·)).get = -x.get :=
  funext fun i => Vec.map_apply _ x i

theorem norm_single (v : Vec ℝ 1) : norm v = |v 0| := by
  rw [norm_eq_length, length_eq_sqrt, dotProduct, Fin.sum_univ_one]
  exact Real.sqrt_mul_self_eq_abs _

def scale (d v : Fin n → ℝ) : Fin n → ℝ :=
  fun i => d i * v i

@[simp] theorem scale_zero (d : Fin n → ℝ) : scale d 0 = 0 :=
  funext fun i => mul_zero (d i)

@[simp] theorem zero_scale (v : Fin n → ℝ) : scale 0 v = 0 :=
  funext fun i => zero_mul (v i)

theorem scale_neg (d v : Fin n → ℝ) : scale d (-v) = -scale d v :=
  funext fun i => mul_neg (d i) (v i)

theorem scaledNorm_eq_length (d v : Vec ℝ n) : scaledNorm d v = length (scale d.get v.get) := by
  rw [scaledNorm, norm_eq_length]
  congr 1
  funext i
  exact Vec.ofFn_apply _ i

theorem tailNorm_sq (c : Vec ℝ m) (j : Nat) :
    tailNorm c j ^ 2 = ∑ i, if j ≤ i.val then c i ^ 2 else 0 := by
  change √(((indicesFrom m j).map c).map (· ^ 2)).sum ^ 2 = _
  rw [Real.sq_sqrt (List.sum_nonneg (by simpa using fun i _ => sq_nonneg (c i))), List.map_map]
  exact sum_indicesFrom (fun i => c i ^ 2) j

end LeastSquares
