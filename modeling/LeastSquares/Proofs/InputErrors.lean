import LeastSquares.Arith.Float
import LeastSquares.Proofs.Noninterference
import LeastSquares.Proofs.ValidSettings

namespace LeastSquares

open Float.Model (UnpackedFloat)

variable {σ : Type} {m n : Nat}

theorem compare_swap (a b : UnpackedFloat) : b.compare a = (a.compare b).map Ordering.swap := by
  cases a with
  | notANumber => cases b <;> rfl
  | infinity s =>
    cases b with
    | infinity s' => cases s <;> cases s' <;> rfl
    | notANumber | zero | finite => cases s <;> rfl
  | zero s =>
    cases b with
    | notANumber | zero => rfl
    | infinity s' | finite s' => cases s' <;> rfl
  | finite s mantissa exponent =>
    cases b with
    | notANumber | zero => cases s <;> rfl
    | infinity s' => cases s <;> cases s' <;> rfl
    | finite s' mantissa' exponent' =>
      have hswap : (compare exponent' exponent).then (compare mantissa' mantissa) =
          ((compare exponent exponent').then (compare mantissa mantissa')).swap := by
        rw [Ordering.swap_then, ← Std.OrientedOrd.eq_swap, ← Std.OrientedOrd.eq_swap]
      cases s <;> cases s'
      · exact congrArg some (congrArg Ordering.swap hswap)
      · rfl
      · rfl
      · exact congrArg some hswap

theorem exists_compare {a b : UnpackedFloat} (ha : a.isFinite = true) (hb : b.isFinite = true) :
    ∃ order, a.compare b = some order := by
  cases a with
  | notANumber | infinity => cases ha
  | zero s =>
    cases b with
    | notANumber | infinity => cases hb
    | zero => exact ⟨_, rfl⟩
    | finite s' => cases s' <;> exact ⟨_, rfl⟩
  | finite s =>
    cases b with
    | notANumber | infinity => cases hb
    | zero => cases s <;> exact ⟨_, rfl⟩
    | finite s' => cases s <;> cases s' <;> exact ⟨_, rfl⟩

/-- Finite floating-point numbers are in a total order. -/
theorem not_le_of_isFinite {x y : Float} (hx : x.isFinite = true) (hy : y.isFinite = true) :
    ¬x ≤ y ↔ y < x := by
  have hle : x ≤ y ↔ x.toModel.unpack.le y.toModel.unpack = true := decide_eq_true_iff
  have hlt : y < x ↔ y.toModel.unpack.lt x.toModel.unpack = true := decide_eq_true_iff
  obtain ⟨order, horder⟩ := exists_compare (a := x.toModel.unpack) (b := y.toModel.unpack) hx hy
  rw [hle, hlt, UnpackedFloat.le, UnpackedFloat.lt, compare_swap x.toModel.unpack, horder]
  cases order <;> decide

theorem isFinite_zero : (0 : Float).isFinite = true := by
  decide

theorem isTolerance_eq_false_iff {x : Float} :
    isTolerance x = false ↔ x < 0 ∨ x.isFinite = false := by
  have hbool : isTolerance x = false ↔ x.isFinite = false ∨ ¬0 ≤ x := by
    rw [isTolerance, Bool.and_eq_false_iff, decide_eq_false_iff_not]
    exact Iff.rfl
  rw [hbool, or_comm]
  -- A NaN is neither at least zero nor below it, so the order decides for finite numbers alone.
  cases hx : x.isFinite with
  | false => simp
  | true => rw [not_le_of_isFinite isFinite_zero hx]

theorem isFactor_eq_true_iff {x : Float} : isFactor x = true ↔ x.isFinite = true ∧ 0 < x := by
  rw [isFactor, Bool.and_eq_true, decide_eq_true_iff]
  exact Iff.rfl

structure Tuning.InRange (t : Tuning Float) : Prop where
  finite : ∀ x ∈ [t.searchTolerance, t.shrinkThreshold, t.growThreshold, t.acceptanceThreshold],
    x.isFinite = true
  searchTolerance_pos : 0 < t.searchTolerance
  searchTolerance_lt_one : t.searchTolerance < 1
  acceptanceThreshold_nonneg : 0 ≤ t.acceptanceThreshold
  acceptanceThreshold_le : t.acceptanceThreshold ≤ t.shrinkThreshold
  shrinkThreshold_lt : t.shrinkThreshold < t.growThreshold
  one_le_maxSearchPasses : 1 ≤ t.maxSearchPasses

theorem Tuning.error?_eq_none_iff_inRange {t : Tuning Float} : t.error? = none ↔ t.InRange := by
  have hone : (1 : Float).isFinite = true := by decide
  have hfinite : (∀ x ∈ [t.searchTolerance, t.shrinkThreshold, t.growThreshold,
      t.acceptanceThreshold], x.isFinite = true) ↔
        t.searchTolerance.isFinite = true ∧ t.shrinkThreshold.isFinite = true ∧
          t.growThreshold.isFinite = true ∧ t.acceptanceThreshold.isFinite = true := by
    simp
  rw [error?_eq_none_iff]
  constructor
  · rintro ⟨finite, range, ⟨hnonneg, hle, hlt⟩, passes⟩
    obtain ⟨hpos, hbelow⟩ := not_or.mp range
    exact ⟨hfinite.mpr finite, (not_le_of_isFinite finite.1 isFinite_zero).mp hpos,
      (not_le_of_isFinite hone finite.1).mp hbelow, hnonneg, hle, hlt,
      Nat.one_le_iff_ne_zero.mpr passes⟩
  · rintro ⟨finite, hpos, hbelow, hnonneg, hle, hlt, passes⟩
    have finite := hfinite.mp finite
    refine ⟨finite, not_or.mpr ⟨?_, ?_⟩, ⟨hnonneg, hle, hlt⟩, Nat.one_le_iff_ne_zero.mp passes⟩
    · exact (not_le_of_isFinite finite.1 isFinite_zero).mpr hpos
    · exact (not_le_of_isFinite hone finite.1).mpr hbelow

inductive Settings.Flawed (s : Settings Float) (m n : Nat) : Prop
  | noParameters (h : n = 0)
  | tooFewResiduals (h : m < n)
  | tolerance {x : Float} (h : x ∈ [s.functionTolerance, s.stepTolerance, s.gradientTolerance])
    (bad : x < 0 ∨ x.isFinite = false)
  | noEvaluations (h : s.maxEvaluations = some 0)
  | stepBound (bad : ¬(s.stepBound.isFinite = true ∧ 0 < s.stepBound))
  | scalingLength {factors : Array Float} (h : s.scaling = .fixed factors)
    (bad : factors.size ≠ n)
  | scalingFactor {factors : Array Float} (h : s.scaling = .fixed factors) {x : Float}
    (hx : x ∈ factors) (bad : ¬(x.isFinite = true ∧ 0 < x))
  | tuning (bad : ¬s.tuning.InRange)

theorem Settings.toleranceError?_eq_none_iff_forall {s : Settings Float} :
    s.toleranceError? = none ↔
      ∀ x ∈ [s.functionTolerance, s.stepTolerance, s.gradientTolerance],
        ¬(x < 0 ∨ x.isFinite = false) := by
  have hvalid (x : Float) : isTolerance x = true ↔ ¬(x < 0 ∨ x.isFinite = false) := by
    rw [← isTolerance_eq_false_iff, Bool.not_eq_false]
  rw [toleranceError?_eq_none_iff, hvalid, hvalid, hvalid]
  simp only [List.forall_mem_cons, List.not_mem_nil, false_imp_iff, implies_true, and_true]

/-- A scaling passes its check exactly if it is adaptive or has a finite and positive factor for
every parameter. -/
theorem Scaling.error?_eq_none_iff {scaling : Scaling Float} :
    scaling.error? n = none ↔ ∀ factors, scaling = .fixed factors →
      factors.size = n ∧ ∀ x ∈ factors, x.isFinite = true ∧ 0 < x := by
  cases scaling with
  | adaptive => exact iff_of_true rfl nofun
  | fixed given =>
    rw [error?_fixed_eq_none_iff]
    simp only [isFactor_eq_true_iff]
    constructor
    · intro h factors heq
      cases heq
      exact h
    · intro h
      exact h given rfl

/-- The checks find every flaw and nothing else. -/
theorem Settings.error?_eq_none_iff_not_flawed {s : Settings Float} :
    s.error? m n = none ↔ ¬s.Flawed m n := by
  rw [error?_eq_none_iff, toleranceError?_eq_none_iff_forall, isFactor_eq_true_iff,
    Scaling.error?_eq_none_iff, Tuning.error?_eq_none_iff_inRange]
  constructor
  · rintro ⟨positive, enough, tolerances, evaluations, stepBound, scaling, tuning⟩ flawed
    cases flawed with
    | noParameters h => exact positive h
    | tooFewResiduals h => exact Nat.not_lt.mpr enough h
    | tolerance h bad => exact tolerances _ h bad
    | noEvaluations h => exact evaluations h
    | stepBound bad => exact bad stepBound
    | scalingLength h bad => exact bad (scaling _ h).1
    | scalingFactor h hx bad => exact bad ((scaling _ h).2 _ hx)
    | tuning bad => exact bad tuning
  · intro sound
    refine ⟨fun h => sound (.noParameters h), Nat.not_lt.mp fun h => sound (.tooFewResiduals h),
      fun x h bad => sound (.tolerance h bad), fun h => sound (.noEvaluations h), ?_, ?_, ?_⟩
    · exact Decidable.not_not.mp fun bad => sound (.stepBound bad)
    · intro factors h
      constructor
      · exact Decidable.not_not.mp fun bad => sound (.scalingLength h bad)
      · intro x hx
        exact Decidable.not_not.mp fun bad => sound (.scalingFactor h hx bad)
    · exact Classical.not_not.mp fun bad => sound (.tuning bad)

/-- Whether an outcome leaves everything as it was, with no call and no log. -/
structure Outcome.Untouched (out : Outcome Float σ) (state : σ) (x : Array Float)
    (workspace : Workspace Float) : Prop where
  problem_eq : out.problem = state
  point_eq : out.point = x
  workspace_eq : out.workspace = workspace
  history_eq : out.history = #[]

variable {problem : Problem Float σ} {state : σ} {x : Array Float} {workspace : Workspace Float}

theorem Finished.close_ne_invalid {f : Finished Float σ} {reportEvery : Nat}
    (error : InputError Float) :
    (f.close problem reportEvery).result ≠ .error (.invalid error) := by
  intro h
  cases hresult : f.result with
  | error => cases (close_of_error hresult).symm.trans h
  | ok halt =>
    rcases close_cases hresult problem reportEvery with ⟨_, -, closed⟩ | ⟨_, -, closed⟩ <;>
      rw [closed] at h <;> cases h

/-- Only the checks refuse a minimization. -/
theorem Settings.error?_of_invalid {s : Settings Float} {error : InputError Float}
    (h : (s.minimizeWith problem state x workspace).result = .error (.invalid error)) :
    s.error? problem.residualCount x.size = some error := by
  unfold minimizeWith at h
  dsimp only at h
  split at h
  · rename_i found
    cases h
    exact found
  · split at h
    · exact absurd h (Finished.close_ne_invalid error)
    · cases h

theorem Settings.untouched_of_invalid {s : Settings Float} {error : InputError Float}
    (h : (s.minimizeWith problem state x workspace).result = .error (.invalid error)) :
    (s.minimizeWith problem state x workspace).Untouched state x workspace := by
  rw [minimizeWith_of_error (error?_of_invalid h)]
  exact ⟨rfl, rfl, rfl, rfl⟩

theorem Settings.exists_invalid_iff {s : Settings Float} :
    (∃ error, (s.minimizeWith problem state x workspace).result = .error (.invalid error)) ↔
      s.Flawed problem.residualCount x.size := by
  have hchecks : s.Flawed problem.residualCount x.size ↔
      s.error? problem.residualCount x.size ≠ none := by
    rw [Ne, error?_eq_none_iff_not_flawed, Classical.not_not]
  rw [hchecks, Option.ne_none_iff_exists']
  constructor
  · rintro ⟨error, h⟩
    exact ⟨error, error?_of_invalid h⟩
  · rintro ⟨error, h⟩
    rw [minimizeWith_of_error h]
    exact ⟨error, rfl⟩

def Settings.toleratingFor (tolerance : Float) (n : Nat) : Settings Float :=
  { tolerating tolerance with maxEvaluations := some (100 * (n + 1)) }

/-- Of these settings only the tolerance can be wrong. -/
theorem Settings.flawed_toleratingFor_iff {tolerance : Float} :
    (toleratingFor tolerance n).Flawed m n ↔
      n = 0 ∨ m < n ∨ tolerance < 0 ∨ tolerance.isFinite = false := by
  constructor
  · intro flawed
    cases flawed with
    | noParameters h => exact Or.inl h
    | tooFewResiduals h => exact Or.inr (Or.inl h)
    | tolerance h bad =>
      rcases List.mem_cons.mp h with rfl | h
      · exact Or.inr (Or.inr bad)
      rcases List.mem_cons.mp h with rfl | h
      · exact Or.inr (Or.inr bad)
      · obtain rfl := List.mem_singleton.mp h
        have sound : ¬((0 : Float) < 0 ∨ (0 : Float).isFinite = false) := by decide
        exact absurd bad sound
    | noEvaluations h =>
      have hzero : 100 * (n + 1) = 0 := Option.some.inj h
      omega
    | stepBound bad =>
      have hbound : isFactor (100.0 : Float) = true := by decide
      exact absurd (isFactor_eq_true_iff.mp hbound) bad
    | scalingLength h => cases h
    | scalingFactor h => cases h
    | tuning bad =>
      have htuning : (Tuning.standard : Tuning Float).error? = none := by decide
      exact absurd (Tuning.error?_eq_none_iff_inRange.mp htuning) bad
  · rintro (h | h | bad)
    · exact .noParameters h
    · exact .tooFewResiduals h
    · exact .tolerance (List.mem_cons_self ..) bad

/-- A standard minimization is refused for its workspace, or it is one with its settings. -/
theorem minimizeStandard_cases (problem : Problem Float σ) (state : σ) (x : Array Float)
    (tolerance : Float) (workspace : Workspace Float) :
    let out := minimizeStandard problem state x tolerance workspace
    (workspace.size < 5 * x.size + problem.residualCount ∧
      (∃ error, out.result = .error (.invalid error)) ∧ out.Untouched state x workspace) ∨
    (¬workspace.size < 5 * x.size + problem.residualCount ∧
      out = ((Settings.toleratingFor tolerance x.size).minimizeWith problem state x
        workspace).withoutGradientTolerance) := by
  intro out
  by_cases small : workspace.size < 5 * x.size + problem.residualCount
  · refine Or.inl ⟨small, ?_⟩
    have hout : out = _ := if_pos small
    rw [hout]
    exact ⟨⟨_, rfl⟩, ⟨rfl, rfl, rfl, rfl⟩⟩
  · exact Or.inr ⟨small, if_neg small⟩

theorem Outcome.result_withoutGradientTolerance {out : Outcome Float σ} {failure : Failure Float} :
    out.withoutGradientTolerance.result = .error failure ↔ out.result = .error failure := by
  unfold withoutGradientTolerance
  cases out.result with
  | error => exact Iff.rfl
  | ok => exact iff_of_false nofun nofun

theorem exists_invalid_standard_iff {tolerance : Float} :
    (∃ error, (minimizeStandard problem state x tolerance workspace).result =
      .error (.invalid error)) ↔
        workspace.size < 5 * x.size + problem.residualCount ∨ x.size = 0 ∨
          problem.residualCount < x.size ∨ tolerance < 0 ∨ tolerance.isFinite = false := by
  rcases minimizeStandard_cases problem state x tolerance workspace with
    ⟨small, refused, -⟩ | ⟨large, hout⟩
  · exact iff_of_true refused (Or.inl small)
  · rw [or_iff_right large, ← Settings.flawed_toleratingFor_iff, hout]
    simp only [Outcome.result_withoutGradientTolerance]
    exact Settings.exists_invalid_iff

theorem untouched_of_invalid_standard {tolerance : Float} {error : InputError Float}
    (h : (minimizeStandard problem state x tolerance workspace).result =
      .error (.invalid error)) :
    (minimizeStandard problem state x tolerance workspace).Untouched state x workspace := by
  rcases minimizeStandard_cases problem state x tolerance workspace with
    ⟨-, -, untouched⟩ | ⟨-, hout⟩
  · exact untouched
  · rw [hout] at h ⊢
    obtain ⟨hproblem, hpoint, hworkspace, hhistory⟩ :=
      Settings.untouched_of_invalid (Outcome.result_withoutGradientTolerance.mp h)
    exact ⟨hproblem, hpoint, hworkspace, hhistory⟩

/-- Minimizations are refused for their inputs exactly as listed, in floating-point arithmetic with
all its values. A refused one calls nothing and leaves the parameters, the problem and the whole
workspace as they were. -/
theorem refusals_are_complete_and_atomic (s : Settings Float) (problem : Problem Float σ)
    (state : σ) (x : Array Float) (tolerance : Float) (workspace : Workspace Float) :
    let m := problem.residualCount
    let n := x.size
    let out := s.minimizeWith problem state x workspace
    let standard := minimizeStandard problem state x tolerance workspace
    ((∃ error, out.result = .error (.invalid error)) ↔ s.Flawed m n) ∧
    ((∃ error, standard.result = .error (.invalid error)) ↔
      workspace.size < 5 * n + m ∨ n = 0 ∨ m < n ∨ tolerance < 0 ∨ tolerance.isFinite = false) ∧
    (∀ error, out.result = .error (.invalid error) → out.Untouched state x workspace) ∧
    ∀ error, standard.result = .error (.invalid error) →
      standard.Untouched state x workspace := by
  intro m n out standard
  exact ⟨Settings.exists_invalid_iff, exists_invalid_standard_iff,
    fun _ => Settings.untouched_of_invalid, fun _ => untouched_of_invalid_standard⟩

end LeastSquares
