import LeastSquares.Checked.Factorization
import LeastSquares.Gradient
import LeastSquares.Proofs.CheckedAccess

namespace LeastSquares

variable {α : Type} {m n : Nat}

namespace Vec

theorem toArray_ofFn (f : Fin n → α) : (ofFn f).toArray = Array.ofFn f :=
  rfl

theorem toArray_map_finRange (f : Fin n → α) :
    ((List.finRange n).map f).toArray = (ofFn f).toArray := by
  refine Array.ext (by simp) fun i _ _ => ?_
  simp [toArray_ofFn]

theorem toArray_fill (n : Nat) (x : α) : (fill n x).toArray = .replicate n x := by
  refine Array.ext (by simp) fun i _ _ => ?_
  simp [fill, toArray_ofFn]

theorem toArray_map {β : Type} (f : α → β) (v : Vec α n) :
    (v.map f).toArray = v.toArray.map f := by
  refine Array.ext (by simp) fun i _ _ => ?_
  simp only [map, toArray_ofFn, Array.getElem_ofFn, Array.getElem_map]
  rfl

theorem map_set {β : Type} (f : α → β) (v : Vec α n) (i : Fin n) (x : α) :
    (v.set i x).map f = (v.map f).set i (f x) := by
  ext k
  simp only [map_apply, set_apply, apply_ite f]

theorem map_swap {β : Type} (f : α → β) (v : Vec α n) (i j : Fin n) :
    (v.swap i j).map f = (v.map f).swap i j := by
  simp only [swap, map_set, map_apply]

theorem set_self (v : Vec α n) (i : Fin n) : v.set i (v i) = v := by
  ext k
  rw [set_apply]
  split
  · rename_i h
    rw [h]
  · rfl

end Vec

namespace Mat

theorem ext_col {a b : Mat α m n} (h : ∀ j, a.col j = b.col j) : a = b :=
  congrArg Mat.mk (Vec.ext h)

variable (a : Mat α m n) (k : Fin n)

theorem col_setCol (j : Fin n) (c : Vec α m) :
    (a.setCol j c).col k = if j = k then c else a.col k := by
  ext i
  rw [col_apply, setCol_apply]
  split <;> rfl

theorem setCol_setCol (c c' : Vec α m) : (a.setCol k c).setCol k c' = a.setCol k c' := by
  ext i l
  simp only [setCol_apply]
  split <;> rfl

theorem setCol_col : a.setCol k (a.col k) = a := by
  ext i l
  rw [setCol_apply]
  split
  · rename_i h
    rw [h, col_apply]
  · rfl

/-- A loop down a column changes that column only. -/
theorem foldl_set_column (is : List (Fin m)) (f : Fin m → α → α) :
    is.foldl (fun a i => a.set i k (f i (a i k))) a =
      a.setCol k (is.foldl (fun c i => c.set i (f i (c i))) (a.col k)) := by
  induction is generalizing a with
  | nil => exact (a.setCol_col k).symm
  | cons i is ih =>
    rw [List.foldl_cons, ih, set, setCol_setCol, col_setCol, if_pos rfl]
    rfl

end Mat

def Reduction.stored (s : Reduction α m n) : Checked.Reduction α where
  packed := ⟨m, n, s.packed⟩
  leading := s.leading.toArray
  remaining := s.remaining.toArray
  reference := s.reference.toArray
  permutation := (s.permutation.map Fin.val).toArray

def QR.stored (f : QR α m n) : Checked.QR α where
  packed := ⟨m, n, f.packed⟩
  leading := f.leading.toArray
  diagonal := f.diagonal.toArray
  columnNorms := f.columnNorms.toArray
  permutation := (f.permutation.map Fin.val).toArray

def Triangular.stored (f : Triangular α m n) : Checked.Factor α where
  packed := ⟨m, n, f.packed⟩
  permutation := (f.permutation.map Fin.val).toArray

open Checked

namespace Reduction

theorem exchange_stored (s : Reduction α m n) (j k : Fin n) :
    s.stored.exchange j k = .ok (s.exchange j k).stored := by
  unfold Checked.Reduction.exchange exchange
  by_cases h : k = j
  · rw [if_pos h, if_pos (congrArg Fin.val h)]
    rfl
  · rw [if_neg h, if_neg (fun e => h (Fin.ext e))]
    simp only [stored, swapColumns_mk, read_toArray, write_toArray, swap_toArray, Vec.map_swap,
      ok_bind, pure_eq_ok]

theorem eq_of_norms {s s' : Reduction α m n} (packed : s.packed = s'.packed)
    (norms : ∀ k, (s.remaining k, s.reference k) = (s'.remaining k, s'.reference k))
    (leading : s.leading = s'.leading) (permutation : s.permutation = s'.permutation) : s = s' := by
  have remaining : s.remaining = s'.remaining := Vec.ext fun k => (Prod.mk.inj (norms k)).1
  have reference : s.reference = s'.reference := Vec.ext fun k => (Prod.mk.inj (norms k)).2
  obtain ⟨_, _, _, _, _⟩ := s
  cases packed
  cases leading
  cases remaining
  cases reference
  cases permutation
  rfl

/-- A loop down a column that changes each entry by itself. -/
theorem loop_ownColumn (a : Mat α m n) (col : Fin n) (start : Nat) (f : α → α) :
    loop start m (fun a i => do a.set i col (f (← a.get i col))) (⟨m, n, a⟩ : Jacobian α) =
      .ok ⟨m, n, a.setCol col (.ofFn fun i =>
        if i ∈ indicesFrom m start then f (a i col) else a i col)⟩ := by
  have looped : (indicesFrom m start).foldl (fun b i => b.set i col (f (b i col))) a =
      a.setCol col (.ofFn fun i => if i ∈ indicesFrom m start then f (a i col) else a i col) := by
    rw [Mat.foldl_set_column a col _ fun _ => f, foldl_set_eq (nodup_indicesFrom m start)]
    rfl
  rw [← looped]
  refine loop_eq (Jacobian.mk m n) _ (map_val_indicesFrom m start) (fun b i _ => ?_) a
  rw [get_mk, ok_bind, set_mk]

/-- A loop down column `k` that reads column `col` as well. -/
theorem loop_column (a : Mat α m n) {col k : Fin n} (hk : k ≠ col) (start : Nat)
    (f : α → α → α) :
    loop start m (fun a i => do a.set i k (f (← a.get i k) (← a.get i col)))
        (⟨m, n, a⟩ : Jacobian α) =
      .ok ⟨m, n, a.setCol k (.ofFn fun i =>
        if i ∈ indicesFrom m start then f (a i k) (a i col) else a i k)⟩ := by
  let next (b : Mat α m n) (i : Fin m) : Mat α m n := b.set i k (f (b i k) (a i col))
  have looped : (indicesFrom m start).foldl next a = a.setCol k (.ofFn fun i =>
      if i ∈ indicesFrom m start then f (a i k) (a i col) else a i k) := by
    rw [Mat.foldl_set_column a k _ fun i x => f x (a i col),
      foldl_set_eq (nodup_indicesFrom m start) (fun i x => f x (a i col))]
    rfl
  rw [← looped]
  refine loop_of_invariant (Jacobian.mk m n) next (map_val_indicesFrom m start)
    (fun b => b.col col = a.col col) ?_ rfl
  intro b hb i _
  have hread : b i col = a i col := congrArg (· i) (congrArg Vec.get hb)
  refine ⟨?_, ?_⟩
  · simp only [next, get_mk, set_mk, ok_bind, hread]
  · rw [← hb]
    exact (b.col_setCol col k _).trans (if_neg hk)

theorem get_diagonal (a : Mat α m n) (row : Fin m) (col : Fin n) (h : row.val = col.val)
    (k : Fin n) : (⟨m, n, a⟩ : Jacobian α).get col k = .ok (a row k) := by
  rw [← h, get_mk]

theorem set_diagonal (a : Mat α m n) (row : Fin m) (col : Fin n) (h : row.val = col.val)
    (k : Fin n) (x : α) : (⟨m, n, a⟩ : Jacobian α).set col k x = .ok ⟨m, n, a.set row k x⟩ := by
  rw [← h, set_mk]

variable [Scalar α]

theorem start_stored (a : Mat α m n) :
    Checked.Reduction.start ⟨m, n, a⟩ = .ok (start a).stored := by
  have norms : collect 0 n (fun j => return Scalar.norm (← column ⟨m, n, a⟩ j)) =
      .ok ((List.finRange n).map fun j => norm (a.col j)) := by
    refine collect_eq (map_val_finRange n) fun j _ => ?_
    rw [column_mk]
    rfl
  have permutation : Array.range n = ((Vec.ofFn id : Vec (Fin n) n).map Fin.val).toArray := by
    refine Array.ext (by simp) fun i _ _ => ?_
    simp [Vec.map, Vec.toArray_ofFn]
  rw [Checked.Reduction.start, norms, ok_bind, Vec.toArray_map_finRange, permutation,
    ← Vec.toArray_fill]
  rfl

theorem largestColumn_stored (s : Reduction α m n) (j : Fin n) :
    s.stored.largestColumn j = .ok (s.largestColumn j).val := by
  refine loop_eq Fin.val (fun best k => if s.remaining best < s.remaining k then k else best)
    (map_val_indicesFrom n j) ?_ j
  intro best k _
  simp only [stored, read_toArray, ok_bind, pure_eq_ok]
  rw [apply_ite Fin.val]

def reflectOne (pivoting : Bool) (row : Fin m) (col : Fin n) (s : Reduction α m n) (k : Fin n) :
    Reduction α m n :=
  let c := reflect (s.packed.col col) row (s.packed.col k)
  if pivoting then
    let norms := LeastSquares.downdate (s.remaining k) (s.reference k) (c row)
      fun _ => tailNorm c (row + 1)
    { s with
      packed := s.packed.setCol k c
      remaining := s.remaining.set k norms.1
      reference := s.reference.set k norms.2 }
  else { s with packed := s.packed.setCol k c }

theorem downdate_stored (s : Reduction α m n) {row : Fin m} {col : Fin n}
    (h : row.val = col.val) (k : Fin n) :
    let norms := LeastSquares.downdate (s.remaining k) (s.reference k) (s.packed row k)
      fun _ => tailNorm (s.packed.col k) (row + 1)
    s.stored.downdate col k =
      .ok (stored { s with
        remaining := s.remaining.set k norms.1
        reference := s.reference.set k norms.2 }) := by
  intro norms
  have rest : columnBlock ⟨m, n, s.packed⟩ (row.val + 1) (m - row.val - 1) k =
      .ok ((indicesFrom m (row + 1)).map fun i => s.packed i k) := by
    rw [Nat.sub_sub]
    exact columnBlock_mk s.packed k row.isLt
  rw [← h]
  unfold Checked.Reduction.downdate
  simp only [norms, stored, read_toArray, get_mk, write_toArray, rest, ok_bind, pure_eq_ok]
  unfold LeastSquares.downdate
  split
  · simp only [Vec.set_self]
  · dsimp only
    split
    · rfl
    · rw [Vec.set_self]

/-- A loop down column `k` that subtracts a multiple of the reflector is the reflection. -/
theorem reflect_eq (a : Mat α m n) (row : Fin m) {col : Fin n} (h : row.val = col.val)
    (k : Fin n) :
    let factor := Arith.sum ((indicesFrom m col).map fun i => a i col * a i k) / a row col
    (Vec.ofFn fun i => if i ∈ indicesFrom m col then a i k - factor * a i col else a i k) =
      reflect (a.col col) row (a.col k) := by
  intro factor
  ext i
  simp only [reflect, Vec.ofFn_apply, mem_indicesFrom, Fin.le_def, h]
  rfl

theorem reflectColumn_stored (pivoting : Bool) (s : Reduction α m n) {row : Fin m} {col k : Fin n}
    (h : row.val = col.val) (hk : k ≠ col) :
    Checked.Reduction.reflectColumn pivoting col s.stored k =
      .ok (s.reflectOne pivoting row col k).stored := by
  have terms : collect col m (fun i => do
      return (← s.stored.packed.get i col) * (← s.stored.packed.get i k)) =
      .ok ((indicesFrom m col).map fun i => s.packed i col * s.packed i k) := by
    refine collect_eq (map_val_indicesFrom m col) fun i _ => ?_
    simp only [stored, get_mk, ok_bind, pure_eq_ok]
  have lead : s.stored.packed.get col col = .ok (s.packed row col) :=
    get_diagonal s.packed row col h col
  let factor := Arith.sum ((indicesFrom m col).map fun i => s.packed i col * s.packed i k) /
    s.packed row col
  let c := reflect (s.packed.col col) row (s.packed.col k)
  have looped : loop col m
      (fun a i => do a.set i k ((← a.get i k) - factor * (← a.get i col))) s.stored.packed =
      .ok ⟨m, n, s.packed.setCol k c⟩ := by
    have looped := loop_column s.packed hk col fun x y => x - factor * y
    rwa [reflect_eq s.packed row h k] at looped
  unfold Checked.Reduction.reflectColumn
  dsimp only
  rw [show s.stored.packed.residualCount = m from rfl, terms, ok_bind, lead, ok_bind, looped,
    ok_bind]
  have hcol : (s.packed.setCol k c).col k = c := by rw [Mat.col_setCol, if_pos rfl]
  have hrow : (s.packed.setCol k c) row k = c row := congrArg (Vec.get · row) hcol
  unfold reflectOne
  cases pivoting with
  | true =>
    have updated := downdate_stored { s with packed := s.packed.setCol k c } h k
    dsimp only at updated
    rw [hcol, hrow] at updated
    exact updated
  | false => rfl

theorem packed_reflectOne (pivoting : Bool) (row : Fin m) (col : Fin n) (s : Reduction α m n)
    (k : Fin n) : (s.reflectOne pivoting row col k).packed =
      s.packed.setCol k (reflect (s.packed.col col) row (s.packed.col k)) := by
  unfold reflectOne
  cases pivoting <;> rfl

theorem norms_reflectOne (pivoting : Bool) (row : Fin m) (col : Fin n) (s : Reduction α m n)
    (k l : Fin n) :
    let c := reflect (s.packed.col col) row (s.packed.col k)
    ((s.reflectOne pivoting row col k).remaining l, (s.reflectOne pivoting row col k).reference l) =
      if pivoting ∧ k = l then
        LeastSquares.downdate (s.remaining k) (s.reference k) (c row) fun _ => tailNorm c (row + 1)
      else (s.remaining l, s.reference l) := by
  intro c
  unfold reflectOne
  cases pivoting with
  | true =>
    by_cases h : k = l
    · simp [h, c, Vec.set_apply]
    · simp [h, Vec.set_apply]
  | false => rfl

/-- What a reduction has become when the columns after `col` and before `l` are reflected by what
column `col` holds from `row` on. -/
structure Reflecting (pivoting : Bool) (row : Fin m) (col : Fin n) (s : Reduction α m n) (l : Nat)
    (s' : Reduction α m n) : Prop where
  packed : ∀ k, s'.packed.col k =
    if col < k ∧ k.val < l then reflect (s.packed.col col) row (s.packed.col k)
    else s.packed.col k
  norms : ∀ k, (s'.remaining k, s'.reference k) =
    if pivoting ∧ col < k ∧ k.val < l then
      let c := reflect (s.packed.col col) row (s.packed.col k)
      LeastSquares.downdate (s.remaining k) (s.reference k) (c row) fun _ => tailNorm c (row + 1)
    else (s.remaining k, s.reference k)
  leading : s'.leading = s.leading
  permutation : s'.permutation = s.permutation

theorem Reflecting.next {pivoting : Bool} {row : Fin m} {col : Fin n} {s s' : Reduction α m n}
    {k : Fin n} (h : Reflecting pivoting row col s k s') (hk : col < k) :
    Reflecting pivoting row col s (k + 1) (s'.reflectOne pivoting row col k) := by
  have hcol : s'.packed.col col = s.packed.col col := by
    rw [h.packed, if_neg fun e => Nat.lt_irrefl _ e.1]
  have hold : s'.packed.col k = s.packed.col k := by
    rw [h.packed, if_neg fun e => Nat.lt_irrefl _ e.2]
  have hnorms : (s'.remaining k, s'.reference k) = (s.remaining k, s.reference k) := by
    rw [h.norms, if_neg fun e => Nat.lt_irrefl _ e.2.2]
  obtain ⟨hremaining, hreference⟩ := Prod.mk.inj hnorms
  have hlater {l : Fin n} (hl : k ≠ l) : l.val < k + 1 ↔ l.val < k := by
    have := Fin.val_ne_of_ne hl
    omega
  refine ⟨?_, ?_, ?_, ?_⟩
  · intro l
    rw [packed_reflectOne, Mat.col_setCol, hcol, hold]
    by_cases hl : k = l
    · subst hl
      rw [if_pos rfl, if_pos ⟨hk, Nat.lt_succ_self _⟩]
    · rw [if_neg hl, h.packed]
      simp only [hlater hl]
  · intro l
    rw [norms_reflectOne, hcol, hold, hremaining, hreference]
    by_cases hl : k = l
    · subst hl
      simp only [hk, Nat.lt_succ_self, and_true, hnorms]
    · rw [if_neg fun e => hl e.2, h.norms]
      simp only [hlater hl]
  · rw [← h.leading]
    unfold reflectOne
    cases pivoting <;> rfl
  · rw [← h.permutation]
    unfold reflectOne
    cases pivoting <;> rfl

theorem col_reflectColumns (pivoting : Bool) (s : Reduction α m n) (j : Fin (min m n)) (v : Vec α m)
    (k : Fin n) : (s.reflectColumns pivoting j v).packed.col k =
      if pivotColumn j < k then reflect v (pivotRow j) (s.packed.col k)
      else if k = pivotColumn j then v else s.packed.col k :=
  Mat.col_mapCols _ s.packed k

theorem norms_reflectColumns (pivoting : Bool) (s : Reduction α m n) (j : Fin (min m n))
    (v : Vec α m) (k : Fin n) :
    ((s.reflectColumns pivoting j v).remaining k, (s.reflectColumns pivoting j v).reference k) =
      if pivoting ∧ pivotColumn j < k then
        let c := reflect v (pivotRow j) (s.packed.col k)
        LeastSquares.downdate (s.remaining k) (s.reference k) (c (pivotRow j))
          fun _ => tailNorm c (j + 1)
      else (s.remaining k, s.reference k) := by
  have hcol := s.col_reflectColumns pivoting j v k
  have hnorms : ((s.reflectColumns pivoting j v).remaining k,
      (s.reflectColumns pivoting j v).reference k) =
      if pivoting ∧ pivotColumn j < k then
        let c := (s.reflectColumns pivoting j v).packed.col k
        LeastSquares.downdate (s.remaining k) (s.reference k) (c (pivotRow j))
          fun _ => tailNorm c (j + 1)
      else (s.remaining k, s.reference k) := by
    simp only [reflectColumns, Vec.map_apply, Vec.ofFn_apply]
    rfl
  rw [hnorms, hcol]
  by_cases hk : pivotColumn j < k
  · rw [if_pos hk]
  · rw [if_neg fun e => hk e.2, if_neg fun e => hk e.2]

theorem Reflecting.eq_reflectColumns {pivoting : Bool} {s s' : Reduction α m n}
    {j : Fin (min m n)} {v : Vec α m}
    (h : Reflecting pivoting (pivotRow j) (pivotColumn j)
      { s with packed := s.packed.setCol (pivotColumn j) v } n s') :
    s' = s.reflectColumns pivoting j v := by
  have hv : (s.packed.setCol (pivotColumn j) v).col (pivotColumn j) = v := by
    rw [Mat.col_setCol, if_pos rfl]
  have hother {k : Fin n} (hk : pivotColumn j < k) :
      (s.packed.setCol (pivotColumn j) v).col k = s.packed.col k := by
    rw [Mat.col_setCol, if_neg (Fin.ne_of_lt hk)]
  refine eq_of_norms (Mat.ext_col fun k => ?_) (fun k => ?_) h.leading h.permutation
  · rw [h.packed, col_reflectColumns, hv]
    by_cases hk : pivotColumn j < k
    · rw [if_pos ⟨hk, k.isLt⟩, if_pos hk, hother hk]
    · rw [if_neg fun e => hk e.1, if_neg hk, Mat.col_setCol]
      simp only [eq_comm]
  · rw [h.norms, norms_reflectColumns, hv]
    by_cases hk : pivotColumn j < k
    · simp only [hk, k.isLt, and_true, hother hk]
      rfl
    · rw [if_neg fun e => hk e.2.1, if_neg fun e => hk e.2]

/-- The columns after `j` are reflected one after the other. -/
theorem foldl_reflectOne (pivoting : Bool) (s : Reduction α m n) (j : Fin (min m n)) (v : Vec α m) :
    (indicesFrom n (j + 1)).foldl (reflectOne pivoting (pivotRow j) (pivotColumn j))
      { s with packed := s.packed.setCol (pivotColumn j) v } = s.reflectColumns pivoting j v := by
  let s₀ : Reduction α m n := { s with packed := s.packed.setCol (pivotColumn j) v }
  have none_done (k : Fin n) : ¬(pivotColumn j < k ∧ k.val < j.val + 1) :=
    fun h => Nat.lt_irrefl _ (Nat.lt_of_lt_of_le h.1 (Nat.le_of_lt_succ h.2))
  have reflecting := foldl_indicesFrom_invariant
    (reflectOne pivoting (pivotRow j) (pivotColumn j))
    (Reflecting pivoting (pivotRow j) (pivotColumn j) s₀) (s := s₀) (pivotColumn j).isLt
    ⟨fun k => (if_neg (none_done k)).symm, fun k => (if_neg fun e => none_done k e.2).symm,
      rfl, rfl⟩
    (fun k s' hk h => h.next hk)
  exact reflecting.eq_reflectColumns

theorem finishColumn_stored (s : Reduction α m n) (j : Fin (min m n)) (size : α) :
    s.stored.finishColumn j size = .ok (s.finishColumn j size).stored := by
  have get := get_diagonal s.packed (pivotRow j) (pivotColumn j) rfl (pivotColumn j)
  have set := set_diagonal s.packed (pivotRow j) (pivotColumn j) rfl (pivotColumn j)
    (-size)
  have put : write s.remaining.toArray j (-size) =
      .ok (s.remaining.set (pivotColumn j) (-size)).toArray := write_toArray _ (pivotColumn j) _
  have back : read (s.remaining.set (pivotColumn j) (-size)).toArray j = .ok (-size) :=
    (read_toArray _ (pivotColumn j)).trans (by rw [Vec.set_apply, if_pos rfl])
  unfold Checked.Reduction.finishColumn finishColumn
  dsimp only [stored]
  rw [show (⟨m, n, s.packed⟩ : Jacobian α).get j j = _ from get, ok_bind, write_toArray, ok_bind,
    put, ok_bind, back, ok_bind, show (⟨m, n, s.packed⟩ : Jacobian α).set j j _ = _ from set]
  rfl

/-- A loop down a column that divides it, with one added to the leading component, makes the
reflector. -/
theorem reflector_eq (c : Vec α m) (row : Fin m) (size : α) :
    (Vec.ofFn fun i => if i ∈ indicesFrom m row then c i / size else c i).set row
      (c row / size + 1) = reflector c row size := by
  ext i
  simp only [Vec.set_apply, Vec.ofFn_apply, mem_indicesFrom, reflector, ← Fin.le_def]
  rcases lt_trichotomy i row with h | rfl | h
  · rw [if_neg h.ne', if_neg h.not_ge, if_pos h]
  · rw [if_pos rfl, if_neg (lt_irrefl _), if_pos rfl]
  · rw [if_neg h.ne, if_pos h.le, if_neg h.not_gt, if_neg h.ne']

theorem reflectColumns_stored (pivoting : Bool) (s : Reduction α m n) (j : Fin (min m n))
    (v : Vec α m) :
    loop (j + 1) n (Checked.Reduction.reflectColumn pivoting j)
        (stored { s with packed := s.packed.setCol (pivotColumn j) v }) =
      .ok (s.reflectColumns pivoting j v).stored := by
  rw [← foldl_reflectOne]
  refine loop_eq stored _ (map_val_indicesFrom n (j + 1)) (fun s k hk => ?_) _
  have hlt : pivotColumn j < k := mem_indicesFrom.mp hk
  exact reflectColumn_stored pivoting s rfl (Fin.ne_of_gt hlt)

theorem makeReflector_stored (a : Mat α m n) (j : Fin (min m n)) (size : α) :
    Checked.Reduction.makeReflector ⟨m, n, a⟩ j size =
      .ok ⟨m, n, a.setCol (pivotColumn j)
        (reflector (a.col (pivotColumn j)) (pivotRow j) size)⟩ := by
  let row := pivotRow j
  let col := pivotColumn j
  have hself : col.val ≤ row.val := Nat.le_refl _
  change Checked.Reduction.makeReflector ⟨m, n, a⟩ col size = _
  unfold Checked.Reduction.makeReflector
  rw [loop_ownColumn a col col fun x => x / size, ok_bind, get_diagonal _ row col rfl, ok_bind,
    set_diagonal _ row col rfl, Mat.set, Mat.setCol_setCol, Mat.col_setCol, if_pos rfl,
    ← reflector_eq]
  simp only [Mat.setCol_apply, Vec.ofFn_apply, mem_indicesFrom, hself, if_true]
  rfl

theorem reduceColumn_stored (pivoting : Bool) (s : Reduction α m n) (j : Fin (min m n)) :
    s.stored.reduceColumn pivoting j = .ok (s.reduceColumn pivoting j).stored := by
  let c := s.packed.col (pivotColumn j)
  have block : columnBlock s.stored.packed j (s.stored.packed.residualCount - j) j =
      .ok ((indicesFrom m j).map c) := columnBlock_mk s.packed (pivotColumn j) (pivotRow j).isLt.le
  have lead : s.stored.packed.get j j = .ok (c (pivotRow j)) :=
    get_diagonal s.packed (pivotRow j) (pivotColumn j) rfl (pivotColumn j)
  unfold Checked.Reduction.reduceColumn reduceColumn
  rw [block, ok_bind, lead]
  by_cases hlength : tailNorm c j == 0
  · refine (if_pos hlength).trans ?_
    rw [s.finishColumn_stored j]
    exact congrArg (Except.ok ∘ stored) (if_pos hlength).symm
  · refine (if_neg hlength).trans ?_
    let size := if c (pivotRow j) < 0 then -tailNorm c j else tailNorm c j
    let v := reflector c (pivotRow j) size
    refine (bind_of_ok (makeReflector_stored s.packed j size) _).trans ?_
    refine (bind_of_ok (s.reflectColumns_stored pivoting j v) _).trans ?_
    rw [finishColumn_stored]
    exact congrArg (Except.ok ∘ stored) (if_neg hlength).symm

theorem step_stored (pivoting : Bool) (s : Reduction α m n) (j : Fin (min m n)) :
    Checked.Reduction.step pivoting s.stored j = .ok (s.step pivoting j).stored := by
  unfold Checked.Reduction.step step
  cases pivoting with
  | true =>
    refine (bind_of_ok (s.largestColumn_stored (pivotColumn j)) _).trans ?_
    refine (bind_of_ok (s.exchange_stored (pivotColumn j) _) _).trans ?_
    exact reduceColumn_stored true _ j
  | false => exact reduceColumn_stored false s j

end Reduction

namespace QR

theorem factorize_stored [Scalar α] (pivoting : Bool) (a : Mat α m n) :
    Checked.QR.factorize pivoting ⟨m, n, a⟩ = .ok (factorize pivoting a).stored := by
  have looped := loop_eq Reduction.stored _ (map_val_finRange (min m n))
    (fun s j _ => s.step_stored pivoting j) (.start a)
  refine (bind_of_ok (Reduction.start_stored a) _).trans ?_
  exact bind_of_ok looped _

variable [Arith α]

/-- A reflection changes the components of a vector one after the other. -/
theorem reflectVector_eq (f : QR α m n) (b : Vec α m) {j : Fin (min m n)}
    (hlead : ¬f.leading j == 0) :
    let row := pivotRow j
    let col := pivotColumn j
    let sum := f.leading j * b row +
      Arith.sum ((indicesFrom m (j + 1)).map fun i => f.packed i col * b i)
    let factor := -sum / f.leading j
    f.reflectVector b j =
      (indicesFrom m (j + 1)).foldl (fun b i => b.set i (b i + factor * f.packed i col))
        (b.set row (b row + factor * f.leading j)) := by
  intro row col sum factor
  rw [foldl_set_eq (nodup_indicesFrom m (j + 1)) fun i x => x + factor * f.packed i col]
  refine (if_neg hlead).trans (Vec.ext fun i => ?_)
  simp only [Vec.ofFn_apply, Vec.set_apply, mem_indicesFrom, Nat.succ_le_iff]
  change _ = if row < i then _ else _
  rcases lt_trichotomy i row with h | rfl | h
  · rw [if_pos h, if_neg h.not_gt, if_neg h.ne']
  · rw [if_neg (lt_irrefl _), if_pos rfl, if_neg (lt_irrefl _), if_pos rfl]
  · rw [if_neg h.not_gt, if_neg h.ne', if_pos h, if_neg h.ne]

theorem reflectVector_stored (f : QR α m n) (b : Vec α m) (j : Fin (min m n)) :
    f.stored.reflectVector b.toArray j = .ok (f.reflectVector b j).toArray := by
  let row := pivotRow j
  let col := pivotColumn j
  have lead : read f.stored.leading j = .ok (f.leading j) := read_toArray f.leading j
  unfold Checked.QR.reflectVector
  refine (bind_of_ok lead _).trans ?_
  by_cases hlead : f.leading j == 0
  · refine (if_pos hlead).trans (congrArg (Except.ok ∘ Vec.toArray) ?_)
    exact (if_pos hlead).symm
  · refine (if_neg hlead).trans ?_
    have entry (i : Fin m) : f.stored.packed.get i j = .ok (f.packed i col) :=
      get_mk f.packed i col
    have terms : collect (j + 1) m (fun i => do
        return (← f.stored.packed.get i j) * (← read b.toArray i)) =
        .ok ((indicesFrom m (j + 1)).map fun i => f.packed i col * b i) := by
      refine collect_eq (map_val_indicesFrom m (j + 1)) fun i _ => ?_
      rw [entry, ok_bind, read_toArray]
      rfl
    have leading : read b.toArray j = .ok (b row) := read_toArray b row
    have put (x : α) : write b.toArray j x = .ok (b.set row x).toArray := write_toArray b row x
    refine (bind_of_ok terms _).trans ?_
    rw [leading, ok_bind, ok_bind, put, ok_bind, f.reflectVector_eq b hlead]
    refine loop_eq Vec.toArray _ (map_val_indicesFrom m (j + 1)) (fun b i _ => ?_) _
    rw [read_toArray, ok_bind, entry, ok_bind, write_toArray]

theorem applyTranspose_stored (f : QR α m n) (b : Vec α m) :
    f.stored.applyTranspose b.toArray = .ok (f.applyTranspose b).toArray := by
  have size : f.stored.leading.size = min m n := Vec.size_toArray _
  unfold Checked.QR.applyTranspose
  rw [require_of (show b.toArray.size = f.stored.packed.residualCount from b.size_toArray), ok_bind,
    size]
  exact loop_eq Vec.toArray _ (map_val_finRange (min m n))
    (fun b j _ => f.reflectVector_stored b j) b

omit [Arith α] in
theorem triangular_stored (f : QR α m n) (h : n ≤ m) :
    f.stored.triangular = .ok (f.triangular h).stored := by
  unfold Checked.QR.triangular
  rw [require_of (show f.stored.packed.parameterCount ≤ f.stored.packed.residualCount from h)]
  rfl

end QR

namespace Triangular

variable (f : Triangular α m n)

theorem withSquare_withSquare (a b : Mat α n n) :
    (f.withSquare a).withSquare b = f.withSquare b := by
  refine congrArg (Triangular.mk · f.permutation f.size_le) (Mat.ext fun i j => ?_)
  simp only [withSquare, Mat.ofFn_apply]
  split <;> rfl

theorem withSquare_square : f.withSquare f.square = f := by
  refine congrArg (Triangular.mk · f.permutation f.size_le) (Mat.ext fun i j => ?_)
  simp only [Mat.ofFn_apply, square_apply]
  split <;> rfl

theorem read_permutation (j : Fin n) : read f.stored.permutation j = .ok (f.permutation j).val :=
  (read_toArray _ j).trans (congrArg Except.ok (Vec.map_apply _ _ _))

theorem size_stored : f.stored.size = n :=
  rfl

theorem entry_stored (i j : Fin n) : f.stored.entry i j = .ok (f.square i j) := by
  unfold Checked.Factor.entry
  rw [require_of (show i.val < f.stored.size from i.isLt), ok_bind, square_apply]
  exact get_mk f.packed (i.castLE f.size_le) j

theorem setEntry_stored (i j : Fin n) (x : α) :
    f.stored.setEntry i j x = .ok (f.withSquare (f.square.set i j x)).stored := by
  have packed : f.packed.set (i.castLE f.size_le) j x =
      (f.withSquare (f.square.set i j x)).packed := by
    ext k l
    simp only [withSquare, Mat.ofFn_apply, Mat.set_apply, Fin.ext_iff, Fin.val_castLE]
    by_cases hk : k.val < n
    · rw [dif_pos hk, square_apply]
      rfl
    · rw [dif_neg hk, if_neg (by omega)]
  unfold Checked.Factor.setEntry
  rw [require_of (show i.val < f.stored.size from i.isLt), ok_bind]
  refine (bind_of_ok (set_mk f.packed (i.castLE f.size_le) j x) _).trans ?_
  rw [packed]
  rfl

variable [Arith α]

theorem mulPermuted_stored (v out : Vec α n) :
    f.stored.mulPermuted v.toArray out.toArray = .ok (f.mulPermuted v).toArray := by
  have size : f.stored.permutation.size = n := Vec.size_toArray _
  let total (j i : Fin n) (x : α) : α := x + f.square i j * v (f.permutation j)
  have column (out : Vec α n) (j : Fin n) :
      (do
        let factor ← read v.toArray (← read f.stored.permutation j)
        loop 0 (j + 1) (fun out i => do
          write out i ((← read out i) + (← f.stored.packed.get i j) * factor)) out.toArray) =
      .ok ((indicesBelow n (j + 1)).foldl
        (fun out i => out.set i (total j i (out i))) out).toArray := by
    rw [read_permutation, ok_bind, read_toArray, ok_bind]
    refine loop_eq Vec.toArray _ (map_val_indicesBelow j.isLt) (fun out i _ => ?_) out
    have entry : f.stored.packed.get i j = .ok (f.square i j) :=
      (get_mk f.packed (i.castLE f.size_le) j).trans (congrArg Except.ok (f.square_apply i j).symm)
    rw [read_toArray, ok_bind, entry, ok_bind, write_toArray]
  unfold Checked.Factor.mulPermuted
  rw [require_of (show v.toArray.size = f.stored.size from v.size_toArray), ok_bind,
    require_of (show out.toArray.size = f.stored.size from out.size_toArray), ok_bind, size,
    out.size_toArray, ← Vec.toArray_fill]
  refine (loop_eq Vec.toArray _ (map_val_finRange n) (fun out j _ => column out j) _).trans ?_
  refine congrArg (Except.ok ∘ Vec.toArray) (Vec.ext fun i => ?_)
  rw [foldl_columns_apply total, Vec.fill_apply, mulPermuted, Vec.ofFn_apply, indicesFrom,
    List.foldl_filter]
  simp only [decide_eq_true_eq]
  rfl

theorem gradientNorm_stored (projected columnNorms : Vec α n) (residualNorm : α) :
    f.stored.gradientNorm projected.toArray columnNorms.toArray residualNorm =
      .ok (f.gradientNorm projected columnNorms residualNorm) := by
  unfold Checked.Factor.gradientNorm gradientNorm
  split
  · rfl
  dsimp only
  rw [List.foldl_map, List.foldl_filter]
  have size : f.stored.permutation.size = n := Vec.size_toArray _
  rw [size]
  refine loop_eq id _ (map_val_finRange n) (fun largest j _ => ?_) 0
  have terms : collect 0 (j + 1) (fun i => do
      return (← f.stored.entry i j) * ((← read projected.toArray i) / residualNorm)) =
      .ok ((indicesBelow n (j + 1)).map fun i => f.square i j * (projected i / residualNorm)) :=
    collect_eq (map_val_indicesBelow j.isLt) fun i _ => by
      rw [entry_stored, ok_bind, read_toArray]
      rfl
  rw [read_permutation, ok_bind, read_toArray, ok_bind, terms]
  cases columnNorms (f.permutation j) == 0 <;> rfl

end Triangular

end LeastSquares
