import LeastSquares.Proofs.RepeatedSolves

namespace LeastSquares

open Checked

variable {α : Type} {m n : Nat}

/-- Whether an array is a bijection of the indices below `n`. -/
def IsPermutation (n : Nat) (p : Array Nat) : Prop :=
  ∃ σ : Equiv.Perm (Fin n), p = Array.ofFn fun j => (σ j).val

theorem isPermutation_iff_exists_vec {p : Array Nat} :
    IsPermutation n p ↔
      ∃ v : Vec (Fin n) n, p = (v.map Fin.val).toArray ∧ Function.Injective v.get := by
  constructor
  · rintro ⟨σ, rfl⟩
    refine ⟨.ofFn σ, ?_, Vec.injective_ofFn σ.injective⟩
    refine Array.ext (by simp) fun i _ _ => ?_
    simp [Vec.map, Vec.toArray_ofFn]
  · rintro ⟨v, rfl, h⟩
    refine ⟨.ofBijective v.get (Finite.injective_iff_bijective.mp h), ?_⟩
    exact Vec.toArray_ofFn _

namespace QR

variable [Scalar α]

theorem isPermutation_factorize (pivoting : Bool) (a : Mat α m n) :
    IsPermutation n (factorize pivoting a).stored.permutation :=
  isPermutation_iff_exists_vec.mpr ⟨_, rfl, permutation_factorize_injective pivoting a⟩

/-- Without pivoting no step touches the permutation. -/
theorem permutation_factorize_of_not_pivoting (a : Mat α m n) :
    (factorize false a).stored.permutation = .range n := by
  have kept : (factorize false a).permutation = .ofFn id :=
    foldl_finRange_invariant (Reduction.step false) (fun _ s => s.permutation = .ofFn id) rfl
      fun j s h => (Reduction.permutation_reduceColumn false s j).trans h
  rw [stored, kept]
  refine Array.ext (by simp) fun i _ _ => ?_
  simp [Vec.map, Vec.toArray_ofFn]

end QR

/-- The marks let a list of indices pass exactly if it meets none twice and no marked one. -/
theorem readPermutation_go_eq_some_iff {ps : List Nat} {seen : Vec Bool n} {is : List (Fin n)} :
    readPermutation.go n ps seen = some is ↔
      is.map Fin.val = ps ∧ is.Nodup ∧ ∀ i ∈ is, seen i = false := by
  induction ps generalizing seen is with
  | nil =>
    unfold readPermutation.go
    constructor
    · intro h
      obtain rfl := Option.some.inj h
      simp
    · rintro ⟨h, -, -⟩
      rw [List.map_eq_nil_iff.mp h]
  | cons p ps ih =>
    have head (h : is.map Fin.val = p :: ps) : ∃ (hp : p < n) (rest : List (Fin n)),
        is = ⟨p, hp⟩ :: rest ∧ rest.map Fin.val = ps := by
      obtain ⟨i, rest, rfl, rfl, hrest⟩ := List.map_eq_cons_iff.mp h
      exact ⟨i.isLt, rest, rfl, hrest⟩
    unfold readPermutation.go
    by_cases hp : p < n
    · let i : Fin n := ⟨p, hp⟩
      rw [dif_pos hp]
      by_cases hi : seen i = true
      · rw [if_pos hi]
        refine iff_of_false nofun fun ⟨hmap, _, hseen⟩ => ?_
        obtain ⟨_, rest, rfl, -⟩ := head hmap
        exact Bool.false_ne_true ((hseen i (List.mem_cons_self ..)).symm.trans hi)
      · rw [if_neg hi, Option.map_eq_some_iff]
        constructor
        · rintro ⟨rest, hrest, rfl⟩
          obtain ⟨hmap, hnodup, hseen⟩ := ih.mp hrest
          have later (j : Fin n) (hj : j ∈ rest) : i ≠ j ∧ seen j = false := by
            have hmark := hseen j hj
            rw [Vec.set_apply] at hmark
            split at hmark
            · exact absurd hmark nofun
            · rename_i hne
              exact ⟨hne, hmark⟩
          refine ⟨congrArg (p :: ·) hmap, List.nodup_cons.mpr ⟨fun hmem => ?_, hnodup⟩, ?_⟩
          · exact (later i hmem).1 rfl
          · exact List.forall_mem_cons.mpr ⟨by simpa using hi, fun j hj => (later j hj).2⟩
        · rintro ⟨hmap, hnodup, hseen⟩
          obtain ⟨_, rest, rfl, hrest⟩ := head hmap
          obtain ⟨hmem, hnodup⟩ := List.nodup_cons.mp hnodup
          refine ⟨rest, ih.mpr ⟨hrest, hnodup, fun j hj => ?_⟩, rfl⟩
          have hne : i ≠ j := by
            rintro rfl
            exact hmem hj
          rw [Vec.set_apply, if_neg hne]
          exact hseen j (List.mem_cons_of_mem _ hj)
    · rw [dif_neg hp]
      exact iff_of_false nofun fun h => hp (head h.1).1

theorem Vec.toList_injective {v w : Vec α n} (h : v.toList = w.toList) : v = w := by
  refine toArray_injective (Array.toList_inj.mp ?_)
  rw [toList_toArray, toList_toArray, h]

theorem Vec.nodup_toList_iff {v : Vec α n} : v.toList.Nodup ↔ Function.Injective v.get := by
  rw [toList, ← List.ofFn_eq_map, List.nodup_ofFn]

/-- Reading accepts the bijections of the indices below `n` and nothing else. -/
theorem readPermutation_eq_ok_iff {p : Array Nat} {v : Vec (Fin n) n} :
    readPermutation n p = .ok v ↔ p = (v.map Fin.val).toArray ∧ Function.Injective v.get := by
  have accepts : readPermutation.go n p.toList (.fill n false) = some v.toList ↔
      p = (v.map Fin.val).toArray ∧ Function.Injective v.get := by
    have hlist : v.toList.map Fin.val = p.toList ↔ p = (v.map Fin.val).toArray := by
      have hget : (v.map Fin.val).get = Fin.val ∘ v.get := funext (Vec.map_apply _ v)
      rw [← Array.toList_inj, Vec.toList_toArray, Vec.toList, Vec.toList, List.map_map, hget,
        eq_comm]
    simp [readPermutation_go_eq_some_iff, hlist, Vec.nodup_toList_iff]
  rw [← accepts]
  unfold readPermutation
  by_cases hsize : p.size = n
  · rw [if_pos hsize]
    cases hgo : readPermutation.go n p.toList (.fill n false) with
    | none => simp only [reduceCtorEq]
    | some is =>
      have hlength : is.toArray.size = n := by
        rw [List.size_toArray, ← List.length_map, (readPermutation_go_eq_some_iff.mp hgo).1]
        exact hsize
      obtain ⟨w, hw⟩ := Option.isSome_iff_exists.mp (Vec.ofArray?_isSome_iff.mpr hlength)
      have his : is = w.toList := by
        rw [← Vec.toList_toArray, ← Vec.eq_of_ofArray? hw]
      dsimp only
      rw [hw, his, Option.some.injEq]
      rw [Except.ok.injEq]
      exact ⟨fun h => h ▸ rfl, Vec.toList_injective⟩
  · rw [if_neg hsize]
    refine iff_of_false (by simp only [reduceCtorEq, not_false_eq_true]) fun h => hsize ?_
    rw [(accepts.mp h).1, Vec.size_toArray]

namespace Factor

/-- Any square matrix goes with exactly the bijections. -/
theorem ofMatrix_eq_ok_iff {r : Mat α n n} {p : Array Nat} {g : LeastSquares.Factor α} :
    LeastSquares.Factor.ofMatrix ⟨n, n, r⟩ p = .ok g ↔
      ∃ v : Vec (Fin n) n, p = (v.map Fin.val).toArray ∧ Function.Injective v.get ∧
        g = ⟨n, n, ⟨r, v, le_rfl⟩⟩ := by
  unfold LeastSquares.Factor.ofMatrix
  rw [dif_pos rfl]
  cases hread : readPermutation n p with
  | error fault =>
    refine iff_of_false nofun fun ⟨v, hp, hv, _⟩ => ?_
    exact nomatch hread.symm.trans (readPermutation_eq_ok_iff.mpr ⟨hp, hv⟩)
  | ok v =>
    obtain ⟨hp, hv⟩ := readPermutation_eq_ok_iff.mp hread
    constructor
    · intro h
      exact ⟨v, hp, hv, (Except.ok.inj h).symm⟩
    · rintro ⟨w, hw, hinjective, rfl⟩
      have hwv := hread.symm.trans (readPermutation_eq_ok_iff.mpr ⟨hw, hinjective⟩)
      obtain rfl := Except.ok.inj hwv
      rfl

theorem exists_ofMatrix_iff {r : Mat α n n} {p : Array Nat} :
    (∃ g, LeastSquares.Factor.ofMatrix ⟨n, n, r⟩ p = .ok g) ↔ IsPermutation n p := by
  rw [isPermutation_iff_exists_vec]
  constructor
  · rintro ⟨g, hg⟩
    obtain ⟨v, hp, hv, -⟩ := ofMatrix_eq_ok_iff.mp hg
    exact ⟨v, hp, hv⟩
  · rintro ⟨v, hp, hv⟩
    exact ⟨_, ofMatrix_eq_ok_iff.mpr ⟨v, hp, hv, rfl⟩⟩

end Factor

namespace Checked.Factor

/-- The triangular factors that there can be: those of a factorization and of a given matrix, and
what a solve makes of one, which is also what a damped solve has when it scatters. -/
inductive Arises [Scalar α] : Factor α → Prop
  | factorized {pivoting : Bool} {a : Jacobian α} {f : Checked.QR α} {t : Factor α}
    (factorization : Checked.QR.factorize pivoting a = .ok f) (triangle : f.triangular = .ok t) :
    Arises t
  | given {r : Jacobian α} {p : Array Nat} {g : LeastSquares.Factor α}
    (accepted : LeastSquares.Factor.ofMatrix r p = .ok g) : Arises g.triangular.stored
  | solved {t : Factor α} {call : FactorCall α} {answer : FactorAnswer α} (before : Arises t)
    (fits : call.Fits t.size) (performed : call.perform t = .ok answer) : Arises answer.factor

def writeListed (f : Factor α) (values : Array α) (s : Array α × List Nat) (j : Nat) :
    Except Fault (Array α × List Nat) := do
  let place ← read f.permutation j
  let x ← write s.1 place (← read values j)
  return (x, s.2 ++ [place])

/-- A scatter with the list of the places that it writes. -/
def scatterListed (f : Factor α) (into values : Array α) : Except Fault (Array α × List Nat) :=
  loop 0 f.permutation.size (f.writeListed values) (into, [])

/-- The list is all that is added to a scatter. -/
theorem map_fst_scatterListed (f : Factor α) (into values : Array α) :
    (f.scatterListed into values).map Prod.fst = f.scatter into values := by
  unfold scatterListed
  refine loop_map Prod.fst (fun s j => ?_) (into, [])
  unfold writeListed
  cases read f.permutation j with
  | error fault => rfl
  | ok place =>
    cases read values j with
    | error fault => rfl
    | ok value =>
      change Except.map Prod.fst (write s.1 place value >>= _) = write s.1 place value
      cases write s.1 place value <;> rfl

end Checked.Factor

theorem IsPermutation.toList_perm {p : Array Nat} (h : IsPermutation n p) :
    p.toList.Perm (List.range n) := by
  obtain ⟨σ, rfl⟩ := h
  have hrange : List.ofFn (Fin.val : Fin n → Nat) = List.range n := by
    rw [List.ofFn_eq_map, List.map_coe_finRange_eq_range]
  rw [Array.toList_ofFn, ← hrange]
  exact σ.ofFn_comp_perm Fin.val

namespace Triangular

variable (f : Triangular α m n)

theorem isPermutation_stored (h : Function.Injective f.permutation.get) :
    IsPermutation n f.stored.permutation :=
  isPermutation_iff_exists_vec.mpr ⟨f.permutation, rfl, h⟩

theorem scatterListed_stored (into values : Vec α n) :
    f.stored.scatterListed into.toArray values.toArray =
      .ok ((scatter f.permutation into values).toArray, f.stored.permutation.toList) := by
  have size : f.stored.permutation.size = n := Vec.size_toArray _
  have folded := foldl_prod (fun (x : Vec α n) j => x.set (f.permutation j) (values j))
    (fun places j => places ++ [(f.permutation j).val]) (List.finRange n) into []
  have places : (List.finRange n).foldl (fun places j => places ++ [(f.permutation j).val]) [] =
      f.stored.permutation.toList := by
    rw [List.foldl_append_eq_append, List.nil_append, stored, Vec.toList_toArray, Vec.toList]
    refine (List.flatMap_pure_eq_map _ _).trans (List.map_congr_left fun j _ => ?_)
    exact (Vec.map_apply _ _ j).symm
  have stepped (s : Vec α n × List Nat) (j : Fin n) :
      f.stored.writeListed values.toArray (s.1.toArray, s.2) j =
        .ok ((s.1.set (f.permutation j) (values j)).toArray, s.2 ++ [(f.permutation j).val]) := by
    rw [Checked.Factor.writeListed, read_permutation, ok_bind, read_toArray, ok_bind, write_toArray]
    rfl
  have looped := loop_eq (fun s : Vec α n × List Nat => (s.1.toArray, s.2))
    (fun s j => (s.1.set (f.permutation j) (values j), s.2 ++ [(f.permutation j).val]))
    (map_val_finRange n) (fun s j _ => stepped s j) (into, [])
  rw [folded, places] at looped
  rw [Checked.Factor.scatterListed, size]
  exact looped

/-- Element `j` ends at place `permutation[j]`. Both are missing for the other `j`. -/
theorem read_scatter (h : Function.Injective f.permutation.get) (into values : Vec α n) (j : Nat) :
    (read f.stored.permutation j >>= read (scatter f.permutation into values).toArray) =
      read values.toArray j := by
  by_cases hj : j < n
  · lift j to Fin n using hj
    rw [f.read_permutation, ok_bind, read_toArray, read_toArray, scatter_apply h]
  · have outside {β : Type} (v : Vec β n) : read v.toArray j = .error .indexOutOfBounds := by
      rw [Checked.read, Array.getElem?_eq_none (by rw [v.size_toArray]; exact Nat.not_lt.mp hj)]
    rw [outside]
    exact bind_of_error (outside _) _

end Triangular

namespace Checked.Factor

variable [Scalar α]

theorem Arises.exists_stored {t : Factor α} (h : t.Arises) :
    ∃ (m n : Nat) (f : Triangular α m n), t = f.stored ∧ Function.Injective f.permutation.get := by
  induction h with
  | @factorized pivoting a f t factorization triangle =>
    obtain ⟨m, n, a⟩ := a
    obtain rfl := Except.ok.inj
      ((LeastSquares.QR.factorize_stored pivoting a).symm.trans factorization)
    by_cases h : n ≤ m
    · have triangular := (LeastSquares.QR.factorize pivoting a).triangular_stored h
      obtain rfl := Except.ok.inj (triangular.symm.trans triangle)
      exact ⟨m, n, _, rfl, LeastSquares.QR.permutation_factorize_injective pivoting a⟩
    · exact nomatch (bind_of_error (require_of_not h _) _).symm.trans triangle
  | @given r p g accepted =>
    obtain ⟨m, n, r⟩ := r
    by_cases h : m = n
    · subst h
      obtain ⟨v, -, hv, rfl⟩ := LeastSquares.Factor.ofMatrix_eq_ok_iff.mp accepted
      exact ⟨_, _, _, rfl, hv⟩
    · exact nomatch (dif_neg h).symm.trans accepted
  | @solved t call answer before fits performed ih =>
    obtain ⟨m, n, f, rfl, permutation⟩ := ih
    obtain ⟨answer', -, g, performed', -, -, factor, kept⟩ :=
      (FactorCall.SameArguments.refl call).exists_answers fits fits (.refl f) permutation
    obtain rfl := Except.ok.inj (performed.symm.trans performed')
    exact ⟨m, n, g, factor, kept.permutation ▸ permutation⟩

theorem Arises.isPermutation {t : Factor α} (h : t.Arises) :
    IsPermutation t.size t.permutation := by
  obtain ⟨m, n, f, rfl, permutation⟩ := h.exists_stored
  exact f.isPermutation_stored permutation

/-- The scatter succeeds, writes each place once and leaves every element at its place. -/
theorem Arises.scatter {t : Factor α} (h : t.Arises) {into values : Array α}
    (hinto : into.size = t.size) (hvalues : values.size = t.size) :
    ∃ x places, t.scatterListed into values = .ok (x, places) ∧ t.scatter into values = .ok x ∧
      places.Perm (List.range t.size) ∧
      ∀ j, (read t.permutation j >>= read x) = read values j := by
  obtain ⟨m, n, f, rfl, permutation⟩ := h.exists_stored
  lift into to Vec α n using hinto
  lift values to Vec α n using hvalues
  have listed := f.scatterListed_stored into values
  refine ⟨_, _, listed, ?_, (f.isPermutation_stored permutation).toList_perm,
    f.read_scatter permutation into values⟩
  rw [← map_fst_scatterListed, listed]
  rfl

end Checked.Factor

/-- The permutation of a factorization is a bijection, and the identity if it does not pivot. A
triangular factor of it passes the checks of a given one, which a square matrix passes with the
bijections and nothing else. So every triangular factor that there can be carries a bijection, and a
scatter writes each component once. -/
theorem triangular_factors_carry_permutations (α : Type) [Scalar α] :
    (∀ (a : Jacobian α) (pivoting : Bool), ∃ f, Checked.QR.factorize pivoting a = .ok f ∧
      f = (QR.factorize pivoting a.entries).stored ∧
      IsPermutation a.parameterCount f.permutation ∧
      (pivoting = false → f.permutation = .range a.parameterCount) ∧
      (a.parameterCount ≤ a.residualCount → ∃ t, f.triangular = .ok t ∧
        t.size = a.parameterCount ∧
        ∀ r : Mat α t.size t.size, ∃ g, Factor.ofMatrix ⟨_, _, r⟩ t.permutation = .ok g ∧
          g.triangular.stored = ⟨⟨_, _, r⟩, f.permutation⟩)) ∧
    (∀ (n : Nat) (r : Mat α n n) (p : Array Nat),
      (∃ g, Factor.ofMatrix ⟨n, n, r⟩ p = .ok g) ↔ IsPermutation n p) ∧
    ∀ t : Checked.Factor α, t.Arises → IsPermutation t.size t.permutation ∧
      ∀ into values : Array α, into.size = t.size → values.size = t.size →
        ∃ x places, t.scatterListed into values = .ok (x, places) ∧
          t.scatter into values = .ok x ∧ places.Perm (List.range t.size) ∧
          ∀ j, (read t.permutation j >>= read x) = read values j := by
  refine ⟨fun ⟨m, n, a⟩ pivoting => ?_, fun _ _ _ => Factor.exists_ofMatrix_iff,
    fun t arises => ⟨arises.isPermutation, fun _ _ => arises.scatter⟩⟩
  let f := QR.factorize pivoting a
  refine ⟨f.stored, QR.factorize_stored pivoting a, rfl, QR.isPermutation_factorize pivoting a,
    ?_, fun h => ⟨_, f.triangular_stored h, rfl, fun r => ?_⟩⟩
  · rintro rfl
    exact QR.permutation_factorize_of_not_pivoting a
  · exact ⟨_, Factor.ofMatrix_eq_ok_iff.mpr
      ⟨f.permutation, rfl, QR.permutation_factorize_injective pivoting a, rfl⟩, rfl⟩

/-- In doubles, the factor of a matrix with NaN on its diagonal. -/
theorem factor_of_nan_diagonal_carries_permutation :
    let a : Jacobian Float := ⟨3, 2, .ofFn fun i j => if i.val = j then 0 / 0 else .ofNat (i + j)⟩
    ∃ f t, Checked.QR.factorize true a = .ok f ∧ f.triangular = .ok t ∧
      IsPermutation 2 t.permutation ∧
      ∃ x places, t.scatterListed #[7, 7] #[5, 6] = .ok (x, places) ∧ places.Perm [0, 1] := by
  intro a
  obtain ⟨factorization, -, carries⟩ := triangular_factors_carry_permutations Float
  obtain ⟨f, factored, -, -, -, triangular⟩ := factorization a true
  obtain ⟨t, triangle, size, -⟩ := triangular (by decide)
  obtain ⟨permutation, scatters⟩ := carries t (.factorized factored triangle)
  obtain ⟨x, places, listed, -, perm, -⟩ := scatters #[7, 7] #[5, 6] size.symm size.symm
  rw [size] at permutation perm
  exact ⟨f, t, factored, triangle, permutation, x, places, listed, perm⟩

end LeastSquares
