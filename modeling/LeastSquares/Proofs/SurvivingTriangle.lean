import LeastSquares.Proofs.Overwriting

namespace LeastSquares

variable {α : Type} {m m' n : Nat}

namespace Elimination

variable [Arith α] {e : Elimination α n} {a : Mat α n n} {done : Nat}

theorem square_rotate_of_ne {k c : Fin n} (h : k ≠ c) (i : Fin n) :
    (e.rotate k).square i c = e.square i c := by
  unfold rotate
  split
  · rfl
  · change (e.square.setCol k _) i c = _
    rw [Mat.setCol_apply, if_neg h]

theorem square_rotate_of_lt {k i : Fin n} (h : i < k) (c : Fin n) :
    (e.rotate k).square i c = e.square i c := by
  by_cases hk : k = c
  · subst hk
    unfold rotate
    split
    · rfl
    · change (e.square.setCol k _) i k = _
      rw [Mat.setCol_apply, if_pos rfl, Vec.ofFn_apply, if_neg h.not_ge]
  · exact square_rotate_of_ne hk i

/-- Whether the working matrix has the entries of `a` above the diagonal, and on the diagonal those
of the first `done` rows. -/
structure Restores (a : Mat α n n) (done : Nat) (e : Elimination α n) : Prop where
  above : ∀ i c, i < c → e.square i c = a i c
  diagonal : ∀ i : Fin n, i < done → e.square i i = a i i

namespace Restores

theorem rotate (h : e.Restores a done) {k : Fin n} (hk : done ≤ k) :
    (e.rotate k).Restores a done := by
  constructor
  · intro i c hic
    rw [← h.above i c hic]
    by_cases hkc : k = c
    · subst hkc
      exact square_rotate_of_lt hic k
    · exact square_rotate_of_ne hkc i
  · intro i hi
    rw [← h.diagonal i hi]
    exact square_rotate_of_lt (Nat.lt_of_lt_of_le hi hk) i

theorem eliminateRow {j : Fin n} (h : e.Restores a j) (d : α) :
    (e.eliminateRow j d).Restores a j := by
  unfold Elimination.eliminateRow
  split
  · exact h
  · exact List.foldlRecOn _ _ ⟨h.above, h.diagonal⟩ fun _ he k hk =>
      he.rotate (mem_indicesFrom.mp hk)

/-- The sweep over a row overwrites diagonal elements from that row on, and only the first of them
is put back. -/
theorem finishRow {j : Fin n} {diagonal : Vec α n} (h : e.Restores a j)
    (hd : diagonal j = a j j) (scaling : Vec α n) (permutation : Vec (Fin n) n) :
    (e.finishRow diagonal scaling permutation j).Restores a (j + 1) := by
  have swept := h.eliminateRow (scaling (permutation j))
  have square (i c : Fin n) : (e.finishRow diagonal scaling permutation j).square i c =
      if j = i ∧ j = c then diagonal j
      else (e.eliminateRow j (scaling (permutation j))).square i c :=
    Mat.set_apply _ j i j c _
  constructor
  · intro i c hic
    rw [square, if_neg fun he => Fin.ne_of_lt hic (he.1.symm.trans he.2)]
    exact swept.above i c hic
  · intro i hi
    rw [square]
    split
    · rename_i he
      rw [hd, he.1]
    · rename_i hne
      have hij : i.val ≠ j := fun he => hne ⟨(Fin.ext he).symm, (Fin.ext he).symm⟩
      exact swept.diagonal i (by omega)

end Restores

end Elimination

theorem symmetrized_apply {a : Mat α n n} {i j : Fin n} (h : i ≤ j) :
    symmetrized a i j = a i j ∧ symmetrized a j i = a i j := by
  unfold symmetrized
  rw [Mat.ofFn_apply, Mat.ofFn_apply, if_pos h]
  refine ⟨?_, rfl⟩
  split
  · rename_i hj
    rw [Fin.le_antisymm h hj]
  · rfl

theorem symmetrized_congr {a a' : Mat α n n} (h : ∀ i j, i ≤ j → a' i j = a i j) :
    symmetrized a' = symmetrized a := by
  ext i j
  rcases Fin.le_total i j with hij | hji
  · rw [(symmetrized_apply hij).1, (symmetrized_apply hij).1, h i j hij]
  · rw [(symmetrized_apply hji).2, (symmetrized_apply hji).2, h j i hji]

namespace Triangular

/-- Whether a factor differs from what it was at most in the strict lower triangle. -/
structure Keeps (f g : Triangular α m n) : Prop where
  permutation : g.permutation = f.permutation
  packed : ∀ (i : Fin m) (j : Fin n), i.val ≤ j ∨ n ≤ i.val → g.packed i j = f.packed i j

theorem Keeps.refl (f : Triangular α m n) : f.Keeps f :=
  ⟨rfl, fun _ _ _ => rfl⟩

theorem Keeps.trans {f g h : Triangular α m n} (hfg : f.Keeps g) (hgh : g.Keeps h) : f.Keeps h :=
  ⟨hgh.permutation.trans hfg.permutation,
    fun i j hij => (hgh.packed i j hij).trans (hfg.packed i j hij)⟩

theorem keeps_withSquare {f : Triangular α m n} {a : Mat α n n}
    (h : ∀ i j, i ≤ j → a i j = f.square i j) : f.Keeps (f.withSquare a) := by
  refine ⟨rfl, fun i j hij => ?_⟩
  rw [withSquare, Mat.ofFn_apply]
  split
  · rename_i hi
    rw [h ⟨i, hi⟩ j (hij.resolve_right (Nat.not_le_of_lt hi)), square_apply]
    rfl
  · rfl

/-- Whether two factors have one triangle `R` and one permutation. They may differ below the
diagonal, also in the number of rows. -/
structure SameTriangle (f : Triangular α m n) (f' : Triangular α m' n) : Prop where
  permutation : f'.permutation = f.permutation
  upper : ∀ i j, i ≤ j → f'.square i j = f.square i j

theorem Keeps.sameTriangle {f g : Triangular α m n} (h : f.Keeps g) : f.SameTriangle g := by
  refine ⟨h.permutation, fun i j hij => ?_⟩
  rw [square_apply, square_apply]
  exact h.packed _ j (.inl hij)

theorem SameTriangle.refl (f : Triangular α m n) : f.SameTriangle f :=
  (Keeps.refl f).sameTriangle

theorem SameTriangle.symm {f : Triangular α m n} {f' : Triangular α m' n}
    (h : f.SameTriangle f') : f'.SameTriangle f :=
  ⟨h.permutation.symm, fun i j hij => (h.upper i j hij).symm⟩

theorem SameTriangle.trans {m'' : Nat} {f : Triangular α m n} {f' : Triangular α m' n}
    {f'' : Triangular α m'' n} (h : f.SameTriangle f') (h' : f'.SameTriangle f'') :
    f.SameTriangle f'' :=
  ⟨h'.permutation.trans h.permutation,
    fun i j hij => (h'.upper i j hij).trans (h.upper i j hij)⟩

variable [Arith α]

theorem keeps_solveDamped (f : Triangular α m n) (scaling b row : Vec α n) :
    f.Keeps (f.solveDamped scaling b row).factor := by
  have restored := foldl_finRange_invariant
    (Elimination.finishRow (.ofFn fun j => f.square j j) scaling f.permutation)
    (Elimination.Restores f.square)
    (s := { square := symmetrized f.square, row, rotated := b, carry := 0 })
    ⟨fun i c hic => (symmetrized_apply (Fin.le_of_lt hic)).1,
      fun i hi => absurd hi (Nat.not_lt_zero i)⟩
    fun j e h => h.finishRow (Vec.ofFn_apply (fun j => f.square j j) j) scaling f.permutation
  refine keeps_withSquare fun i j hij => ?_
  rcases Fin.lt_or_eq_of_le hij with hlt | rfl
  · exact restored.above i j hlt
  · exact restored.diagonal i i.isLt

end Triangular

structure DampedSolution.Agrees (d : DampedSolution α m n) (d' : DampedSolution α m' n) : Prop where
  solution : d'.solution = d.solution
  diagonal : d'.diagonal = d.diagonal
  square : d'.factor.square = d.factor.square
  permutation : d'.factor.permutation = d.factor.permutation

namespace Triangular.SameTriangle

section Arith

variable [Arith α] {f : Triangular α m n} {f' : Triangular α m' n}

theorem solveDamped (h : f.SameTriangle f') (scaling b row row' : Vec α n) :
    (f.solveDamped scaling b row).Agrees (f'.solveDamped scaling b row') := by
  have start : symmetrized f'.square = symmetrized f.square := symmetrized_congr h.upper
  have diagonal : (Vec.ofFn fun j => f'.square j j) = Vec.ofFn fun j => f.square j j :=
    Vec.ext fun j => by rw [Vec.ofFn_apply, Vec.ofFn_apply, h.upper j j (Fin.le_refl j)]
  rw [f'.solveDamped_congr scaling b row row']
  unfold Triangular.solveDamped
  dsimp only
  rw [start, diagonal, h.permutation]
  refine ⟨rfl, rfl, ?_, h.permutation⟩
  rw [square_withSquare, square_withSquare]

theorem rank (h : f.SameTriangle f') : f'.rank = f.rank := by
  unfold Triangular.rank
  simp only [h.upper _ _ (Fin.le_refl _)]

/-- The products of the first entries of a column with the components of a vector. -/
theorem products (h : f.SameTriangle f') (b : Vec α n) {j : Fin n} {stop : Nat}
    (hj : stop ≤ j + 1) :
    ((indicesBelow n stop).map fun i => f'.square i j * b i) =
      (indicesBelow n stop).map fun i => f.square i j * b i := by
  refine List.map_congr_left fun i hi => ?_
  have hlt := mem_indicesBelow.mp hi
  rw [h.upper i j (Fin.le_def.mpr (by omega))]

theorem solveLeading (h : f.SameTriangle f') (b : Vec α n) :
    f'.solveLeading b = f.solveLeading b := by
  unfold Triangular.solveLeading
  dsimp only
  rw [h.rank]
  congr 1
  funext z j
  simp only [h.upper j j (Fin.le_refl j)]
  congr 1
  funext i
  split
  · rename_i hij
    rw [h.upper i j (Fin.le_of_lt hij)]
  · rfl

theorem solveTranspose (h : f.SameTriangle f') (b : Vec α n) :
    f'.solveTranspose b = f.solveTranspose b := by
  unfold Triangular.solveTranspose
  dsimp only
  congr 1
  funext z j
  rw [h.products z (Nat.le_succ j), h.upper j j (Fin.le_refl j)]

theorem transposeMul (h : f.SameTriangle f') (b : Vec α n) :
    f'.transposeMul b = f.transposeMul b := by
  unfold Triangular.transposeMul
  dsimp only
  congr 1
  funext j
  rw [h.products b (Nat.le_refl (j + 1))]

end Arith

variable [Scalar α] {f : Triangular α m n} {f' : Triangular α m' n}

theorem lowerBound (h : f.SameTriangle f') (p : Subproblem α n) (scaled : Vec α n)
    (length excess : α) :
    p.lowerBound f' scaled length excess = p.lowerBound f scaled length excess := by
  unfold Subproblem.lowerBound
  rw [h.rank, h.permutation, h.solveTranspose]

theorem scaledGradient (h : f.SameTriangle f') (p : Subproblem α n) :
    p.scaledGradient f' = p.scaledGradient f := by
  unfold Subproblem.scaledGradient
  rw [h.transposeMul, h.permutation]

end Triangular.SameTriangle

structure SearchState.Agrees (s : SearchState α m n) (s' : SearchState α m' n) : Prop where
  damping : s'.damping = s.damping
  lower : s'.lower = s.lower
  upper : s'.upper = s.upper
  excess : s'.excess = s.excess
  factor : s.factor.SameTriangle s'.factor
  passes : s'.passes = s.passes
  log : s'.log = s.log

structure SearchPass.Agrees (t : SearchPass α m n) (t' : SearchPass α m' n) : Prop where
  damping : t'.damping = t.damping
  solved : t.solved.Agrees t'.solved
  scaled : t'.scaled = t.scaled
  length : t'.length = t.length
  excess : t'.excess = t.excess

/-- Whether two searches found the same. Their factors may differ. -/
structure SearchOutcome.SameResult (out : SearchOutcome α m n) (out' : SearchOutcome α m' n) :
    Prop where
  damping : out'.damping = out.damping
  passes : out'.passes = out.passes
  step : out'.step = out.step
  log : out'.log = out.log

namespace SearchState

variable [Scalar α] {p : Subproblem α n} {s : SearchState α m n} {s' : SearchState α m' n}

theorem Agrees.solve (h : s.Agrees s') (p : Subproblem α n) :
    (s.solve p).Agrees (s'.solve p) := by
  have damping : (s'.solve p).damping = (s.solve p).damping := by
    change Subproblem.restarted s'.damping s'.upper = Subproblem.restarted s.damping s.upper
    rw [h.damping, h.upper]
  have weights : (s'.solve p).weights = (s.solve p).weights :=
    congrArg (fun damping => p.scaling.map (· * Arith.sqrt damping)) damping
  have solved : (s.solve p).solved.Agrees (s'.solve p).solved := by
    change (s.factor.solveDamped (s.solve p).weights _ _).Agrees
      (s'.factor.solveDamped (s'.solve p).weights _ _)
    rw [weights]
    exact h.factor.solveDamped _ _ _ _
  have scaled : (s'.solve p).scaled = (s.solve p).scaled := congrArg p.scaled solved.solution
  have length : (s'.solve p).length = (s.solve p).length := congrArg norm scaled
  exact ⟨damping, solved, scaled, length, congrArg (· - p.radius) length⟩

variable {t : SearchPass α m n} {t' : SearchPass α m' n}

omit [Scalar α] in
theorem Agrees.log_record (h : s.Agrees s') (ht : t.Agrees t') :
    s'.log ++ [s'.record t'] = s.log ++ [s.record t] := by
  rw [record, record, h.log, h.passes, h.lower, h.upper, ht.damping, ht.length]

theorem Agrees.settles (h : s.Agrees s') (ht : t.Agrees t') :
    s'.settles p t' = s.settles p t := by
  unfold SearchState.settles
  rw [h.lower, h.excess, ht.excess]

theorem Agrees.outcome (h : s.Agrees s') (ht : t.Agrees t') :
    (s.outcome t).SameResult (s'.outcome t') :=
  ⟨ht.damping, congrArg (· + 1) h.passes, congrArg (Vec.map (-·)) ht.solved.solution,
    h.log_record ht⟩

/-- The correction reads below the diagonal, where the damped solve has written before. -/
theorem Agrees.corrected (h : s.Agrees s') (ht : t.Agrees t') :
    (s.corrected p t).Agrees (s'.corrected p t') := by
  have newton : t'.solved.factor.solveDampedTranspose t'.solved.diagonal
        (p.direction s'.factor.permutation t'.scaled t'.length) =
      t.solved.factor.solveDampedTranspose t.solved.diagonal
        (p.direction s.factor.permutation t.scaled t.length) := by
    rw [ht.solved.diagonal, ht.scaled, ht.length, h.factor.permutation]
    unfold Triangular.solveDampedTranspose
    rw [ht.solved.square]
  have lower : (s'.corrected p t').lower = (s.corrected p t).lower := by
    unfold SearchState.corrected
    rw [h.lower, ht.excess, ht.damping]
  refine ⟨?_, lower, ?_, ht.excess, ⟨ht.solved.permutation, fun i j _ => ?_⟩,
    congrArg (· + 1) h.passes, h.log_record ht⟩
  · change Arith.maxNum (s'.corrected p t').lower (t'.damping + p.newton t'.excess _) =
      Arith.maxNum (s.corrected p t).lower (t.damping + p.newton t.excess _)
    rw [lower, ht.damping, ht.excess, newton]
  · unfold SearchState.corrected
    rw [h.upper, ht.excess, ht.damping]
  · change t'.solved.factor.square i j = t.solved.factor.square i j
    rw [ht.solved.square]

theorem Agrees.run (h : s.Agrees s') (further : Nat) :
    (run p further s).SameResult (run p further s') := by
  induction further generalizing s s' with
  | zero => exact h.outcome (h.solve p)
  | succ further ih =>
    have ht := h.solve p
    unfold SearchState.run
    dsimp only
    rw [h.settles ht]
    split
    · exact h.outcome ht
    · exact ih (h.corrected ht)

theorem keeps_run {f : Triangular α m n} (kept : f.Keeps s.factor) (p : Subproblem α n)
    (further : Nat) : f.Keeps (run p further s).factor := by
  induction further generalizing s with
  | zero => exact kept.trans (s.factor.keeps_solveDamped _ _ _)
  | succ further ih =>
    have solved : f.Keeps (s.solve p).solved.factor :=
      kept.trans (s.factor.keeps_solveDamped _ _ _)
    unfold run
    dsimp only
    split
    · exact solved
    · exact ih (s := s.corrected p (s.solve p)) solved

end SearchState

namespace Subproblem

variable [Scalar α]

theorem keeps_search (p : Subproblem α n) (f : Triangular α m n) (estimate : α)
    (oldStep : Vec α n) (buffers : SearchBuffers α n) :
    f.Keeps (p.search f estimate oldStep buffers).factor := by
  unfold search
  dsimp only
  split
  · exact .refl f
  · exact SearchState.keeps_run (.refl f) p _

/-- A search sees the triangle and the permutation of its factor only. -/
theorem search_sameResult {f : Triangular α m n} {f' : Triangular α m' n}
    (h : f.SameTriangle f') (permutation : Function.Injective f.permutation.get)
    (p : Subproblem α n) (estimate : α) (oldStep oldStep' : Vec α n)
    (buffers buffers' : SearchBuffers α n) :
    (p.search f estimate oldStep buffers).SameResult
      (p.search f' estimate oldStep' buffers') := by
  unfold search
  dsimp only
  rw [h.permutation, scatter_congr permutation oldStep oldStep', h.solveLeading, h.lowerBound,
    h.scaledGradient]
  split
  · exact ⟨rfl, rfl, rfl, rfl⟩
  · refine SearchState.Agrees.run ?_ _
    exact ⟨rfl, rfl, rfl, rfl, h, rfl, rfl⟩

end Subproblem

end LeastSquares
