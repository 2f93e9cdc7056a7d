import LeastSquares.Checked.Search
import LeastSquares.Proofs.CheckedFactorization

namespace LeastSquares

open Checked

variable {α : Type} {m n : Nat}

def Elimination.stored (f : Triangular α m n) (e : Elimination α n) : Checked.Elimination α where
  factor := (f.withSquare e.square).stored
  row := e.row.toArray
  rotated := e.rotated.toArray
  carry := e.carry

namespace Triangular

variable (f : Triangular α m n) (a : Mat α n n)

theorem entry_withSquare (i j : Fin n) : (f.withSquare a).stored.entry i j = .ok (a i j) := by
  rw [entry_stored, square_withSquare]

theorem setEntry_withSquare (i j : Fin n) (x : α) :
    (f.withSquare a).stored.setEntry i j x = .ok (f.withSquare (a.set i j x)).stored := by
  rw [setEntry_stored, square_withSquare, withSquare_withSquare]

end Triangular

namespace Elimination

open Checked.Elimination (rotateEntry)

variable [Arith α] (f : Triangular α m n) (e : Elimination α n)

/-- The part of a rotation that goes down column `k` after the diagonal. -/
theorem loop_rotateEntry (g : Rotation α) (a : Mat α n n) (row : Vec α n) (k : Fin n) :
    loop (k + 1) n (rotateEntry g k) ((f.withSquare a).stored, row.toArray) =
      .ok
        ((f.withSquare (a.setCol k (.ofFn fun i =>
            if k < i then g.cos * a i k + g.sin * row i else a i k))).stored,
          (Vec.ofFn fun i => if k < i then -g.sin * a i k + g.cos * row i else row i).toArray) := by
  let store (p : Vec α n × Vec α n) : Checked.Factor α × Array α :=
    ((f.withSquare (a.setCol k p.1)).stored, p.2.toArray)
  let next (p : Vec α n × Vec α n) (i : Fin n) : Vec α n × Vec α n :=
    (p.1.set i (g.cos * p.1 i + g.sin * p.2 i), p.2.set i (-g.sin * p.1 i + g.cos * p.2 i))
  have rotated (p : Vec α n × Vec α n) (i : Fin n) :
      rotateEntry g k (store p) i = .ok (store (next p i)) := by
    have hcol : (a.setCol k p.1) i k = p.1 i := by rw [Mat.setCol_apply, if_pos rfl]
    have hset (x : α) : (a.setCol k p.1).set i k x = a.setCol k (p.1.set i x) := by
      rw [Mat.set, Mat.col_setCol, if_pos rfl, Mat.setCol_setCol]
    unfold rotateEntry
    dsimp only [store, next]
    rw [f.entry_withSquare, ok_bind, read_toArray, ok_bind, write_toArray, ok_bind,
      f.setEntry_withSquare, ok_bind, hcol, hset]
    rfl
  have looped := loop_eq store next (map_val_indicesFrom n (k + 1)) (fun p i _ => rotated p i)
    (a.col k, row)
  have folded := foldl_set_pair (nodup_indicesFrom n (k + 1))
    (fun _ x y => g.cos * x + g.sin * y) (fun _ x y => -g.sin * x + g.cos * y) (a.col k) row
  simp only [next, folded, store, Mat.setCol_col, mem_indicesFrom, Nat.succ_le_iff,
    ← Fin.lt_def] at looped
  exact looped

/-- The rotation of the diagonal element may come first. -/
theorem rotate_eq {k : Fin n} (hd : ¬e.row k == 0) :
    let g := Rotation.eliminating (e.square k k) (e.row k)
    let a := e.square.set k k (g.cos * e.square k k + g.sin * e.row k)
    e.rotate k =
      { square := a.setCol k (.ofFn fun i =>
          if k < i then g.cos * a i k + g.sin * e.row i else a i k)
        row := .ofFn fun i => if k < i then -g.sin * a i k + g.cos * e.row i else e.row i
        rotated := e.rotated.set k (g.cos * e.rotated k + g.sin * e.carry)
        carry := -g.sin * e.rotated k + g.cos * e.carry } := by
  intro g a
  have diagonal : a k k = g.cos * e.square k k + g.sin * e.row k := by
    rw [Mat.set_apply, if_pos ⟨rfl, rfl⟩]
  have other {i : Fin n} (hi : i ≠ k) : a i k = e.square i k := by
    rw [Mat.set_apply, if_neg fun h => hi h.1.symm]
  have square : e.square.setCol k (.ofFn fun i =>
        if k ≤ i then g.cos * e.square i k + g.sin * e.row i else e.square i k) =
      a.setCol k (.ofFn fun i => if k < i then g.cos * a i k + g.sin * e.row i else a i k) := by
    rw [show a = e.square.setCol k _ from rfl, Mat.setCol_setCol]
    refine congrArg (e.square.setCol k) (Vec.ext fun i => ?_)
    rw [Vec.ofFn_apply, Vec.ofFn_apply]
    change _ = if k < i then g.cos * a i k + _ else a i k
    rcases lt_trichotomy k i with h | rfl | h
    · rw [if_pos h, if_pos h.le, other h.ne']
    · rw [if_neg (lt_irrefl _), if_pos le_rfl, diagonal]
    · rw [if_neg h.not_gt, if_neg h.not_ge, other h.ne]
  have row : (Vec.ofFn fun i =>
        if k < i then -g.sin * e.square i k + g.cos * e.row i else e.row i) =
      .ofFn fun i => if k < i then -g.sin * a i k + g.cos * e.row i else e.row i := by
    refine Vec.ext fun i => ?_
    rw [Vec.ofFn_apply, Vec.ofFn_apply]
    by_cases h : k < i
    · rw [if_pos h, if_pos h, other h.ne']
    · rw [if_neg h, if_neg h]
  rw [rotate, if_neg hd, ← square, ← row]

theorem rotate_stored (k : Fin n) : (e.stored f).rotate k = .ok ((e.rotate k).stored f) := by
  unfold Checked.Elimination.rotate
  refine (bind_of_ok (read_toArray e.row k) _).trans ?_
  by_cases hd : e.row k == 0
  · refine (if_pos hd).trans (congrArg (Except.ok ∘ stored f) ?_)
    exact (if_pos hd).symm
  · refine (if_neg hd).trans ?_
    let g := Rotation.eliminating (e.square k k) (e.row k)
    let a := e.square.set k k (g.cos * e.square k k + g.sin * e.row k)
    have entry := f.entry_withSquare e.square k k
    refine (bind_of_ok entry _).trans ((bind_of_ok entry _).trans ?_)
    refine (bind_of_ok (f.setEntry_withSquare e.square k k _) _).trans ?_
    refine (bind_of_ok (read_toArray e.rotated k) _).trans ?_
    refine (bind_of_ok (write_toArray e.rotated k _) _).trans ?_
    refine (bind_of_ok (loop_rotateEntry f g a e.row k) _).trans ?_
    rw [e.rotate_eq hd]
    rfl

theorem eliminateRow_stored (j : Fin n) (d : α) :
    (e.stored f).eliminateRow j d = .ok ((e.eliminateRow j d).stored f) := by
  unfold Checked.Elimination.eliminateRow eliminateRow
  by_cases hd : d == 0
  · rw [if_pos hd, if_pos hd]
    rfl
  rw [if_neg hd, if_neg hd]
  have row : (Vec.ofFn fun i : Fin n => if i.val < j then e.row i else 0).set j d =
      .ofFn fun k => if k < j then e.row k else if k = j then d else 0 := by
    ext k
    simp only [Vec.set_apply, Vec.ofFn_apply, ← Fin.lt_def]
    rcases lt_trichotomy k j with h | rfl | h
    · rw [if_neg h.ne', if_pos h, if_pos h]
    · rw [if_pos rfl, if_neg (lt_irrefl _), if_pos rfl]
    · rw [if_neg h.ne, if_neg h.not_gt, if_neg h.not_gt, if_neg h.ne']
  refine (bind_of_ok (fillBlock_toArray e.row 0 j.isLt.le) _).trans ?_
  refine (bind_of_ok (write_toArray _ j d) _).trans ?_
  rw [row]
  exact loop_eq (stored f) rotate (map_val_indicesFrom n j) (fun e k _ => e.rotate_stored f k)
    { e with
      row := .ofFn fun k => if k < j then e.row k else if k = j then d else 0
      carry := 0 }

theorem finishRow_stored (diagonal scaling : Vec α n) (j : Fin n) :
    Checked.Elimination.finishRow diagonal.toArray scaling.toArray (e.stored f) j =
      .ok ((e.finishRow diagonal scaling f.permutation j).stored f) := by
  let d := scaling (f.permutation j)
  let e' := e.eliminateRow j d
  have permuted := (f.withSquare e.square).read_permutation j
  unfold Checked.Elimination.finishRow
  refine (bind_of_ok permuted _).trans ((bind_of_ok (read_toArray scaling _) _).trans ?_)
  refine (bind_of_ok (e.eliminateRow_stored f j d) _).trans ?_
  refine (bind_of_ok (f.entry_withSquare e'.square j j) _).trans ?_
  refine (bind_of_ok (write_toArray e'.row j _) _).trans ?_
  refine (bind_of_ok (read_toArray diagonal j) _).trans ?_
  exact bind_of_ok (f.setEntry_withSquare e'.square j j (diagonal j)) _

end Elimination

namespace Triangular

variable (f : Triangular α m n)

theorem scatter_stored (into values : Vec α n) :
    f.stored.scatter into.toArray values.toArray =
      .ok (scatter f.permutation into values).toArray := by
  have size : f.stored.permutation.size = n := Vec.size_toArray _
  unfold Checked.Factor.scatter
  rw [size]
  refine loop_eq Vec.toArray _ (map_val_finRange n) (fun x j _ => ?_) into
  rw [read_permutation, ok_bind, read_toArray, ok_bind, write_toArray]

/-- Row `j` of the upper triangle is not changed by the copy, its diagonal element included. -/
theorem mirrorRow_withSquare (a : Mat α n n) (j : Fin n) :
    (f.withSquare a).stored.mirrorRow j =
      .ok (f.withSquare (a.setCol j (.ofFn fun i => if j ≤ i then a j i else a i j))).stored := by
  have folded : (indicesFrom n j).foldl (fun b i => b.set i j (a j i)) a =
      a.setCol j (.ofFn fun i => if j ≤ i then a j i else a i j) := by
    rw [Mat.foldl_set_column a j _ fun i _ => a j i,
      foldl_set_eq (nodup_indicesFrom n j) fun i _ => a j i]
    simp only [mem_indicesFrom, Fin.le_def]
    rfl
  rw [← folded]
  refine loop_of_invariant (fun b => (f.withSquare b).stored) _ (map_val_indicesFrom n j)
    (fun b => ∀ l, b j l = a j l) (fun b hb i _ => ⟨?_, fun l => ?_⟩) fun _ => rfl
  · rw [entry_withSquare, ok_bind, setEntry_withSquare, hb]
  · rw [Mat.set_apply, hb]
    split
    · rename_i h
      rw [← h.2, h.1]
    · rfl

theorem prepareRow_withSquare (b : Vec α n) (a : Mat α n n) (solution permuted : Vec α n)
    (j : Fin n) :
    Checked.Factor.prepareRow b.toArray
        ((f.withSquare a).stored, solution.toArray, permuted.toArray) j =
      .ok
        ((f.withSquare (a.setCol j (.ofFn fun i => if j ≤ i then a j i else a i j))).stored,
          (solution.set j (a j j)).toArray, (permuted.set j (b j)).toArray) := by
  unfold Checked.Factor.prepareRow
  rw [mirrorRow_withSquare, ok_bind, entry_withSquare, ok_bind, write_toArray, ok_bind,
    read_toArray, ok_bind, write_toArray, ok_bind, Mat.setCol_apply, if_pos rfl, Vec.ofFn_apply,
    if_pos le_rfl]
  rfl

structure Preparing (a : Mat α n n) (b : Vec α n) (k : Nat) (p : Mat α n n × Vec α n × Vec α n) :
    Prop where
  square : ∀ i l, p.1 i l = if l ≤ i ∧ l.val < k then a l i else a i l
  solution : ∀ l : Fin n, l.val < k → p.2.1 l = a l l
  permuted : ∀ l : Fin n, l.val < k → p.2.2 l = b l

def prepared (b : Vec α n) (p : Mat α n n × Vec α n × Vec α n) (j : Fin n) :
    Mat α n n × Vec α n × Vec α n :=
  (p.1.setCol j (.ofFn fun i => if j ≤ i then p.1 j i else p.1 i j), p.2.1.set j (p.1 j j),
    p.2.2.set j (b j))

theorem Preparing.next {a : Mat α n n} {b : Vec α n} {j : Fin n}
    {p : Mat α n n × Vec α n × Vec α n} (h : Preparing a b j p) :
    Preparing a b (j + 1) (prepared b p j) := by
  have upper {i l : Fin n} (hl : j ≤ l) : p.1 i l = a i l := by
    rw [h.square, if_neg fun e => Nat.lt_irrefl _ (Nat.lt_of_lt_of_le e.2 hl)]
  have earlier {l : Fin n} (hl : l.val < j + 1) (hne : j ≠ l) : l.val < j :=
    Nat.lt_of_le_of_ne (Nat.le_of_lt_succ hl) fun e => hne (Fin.ext e.symm)
  refine ⟨fun i l => ?_, fun l hl => ?_, fun l hl => ?_⟩
  · simp only [prepared, Mat.setCol_apply, Vec.ofFn_apply]
    by_cases hl : j = l
    · subst hl
      by_cases hi : j ≤ i
      · rw [if_pos rfl, if_pos hi, if_pos ⟨hi, Nat.lt_succ_self _⟩, upper hi]
      · rw [if_pos rfl, if_neg hi, if_neg fun e => hi e.1, upper le_rfl]
    · rw [if_neg hl, h.square]
      have hiff : l.val < j + 1 ↔ l.val < j := ⟨fun e => earlier e hl, Nat.lt_succ_of_lt⟩
      simp only [hiff]
  · simp only [prepared, Vec.set_apply]
    by_cases hne : j = l
    · rw [if_pos hne, ← hne, upper le_rfl]
    · rw [if_neg hne, h.solution l (earlier hl hne)]
  · simp only [prepared, Vec.set_apply]
    by_cases hne : j = l
    · rw [if_pos hne, hne]
    · rw [if_neg hne, h.permuted l (earlier hl hne)]

theorem foldl_prepared (a : Mat α n n) (b solution permuted : Vec α n) :
    (List.finRange n).foldl (prepared b) (a, solution, permuted) =
      (symmetrized a, .ofFn fun j => a j j, b) := by
  have h := foldl_finRange_invariant (prepared b) (Preparing a b) (s := (a, solution, permuted))
    ⟨fun i l => (if_neg fun e => Nat.not_lt_zero _ e.2).symm,
      fun _ hl => absurd hl (Nat.not_lt_zero _), fun _ hl => absurd hl (Nat.not_lt_zero _)⟩
    fun j p h => h.next
  refine Prod.ext (Mat.ext fun i j => ?_) (Prod.ext (Vec.ext fun j => ?_) (Vec.ext fun j => ?_))
  · rw [h.square, symmetrized, Mat.ofFn_apply]
    simp only [j.isLt, and_true]
  · rw [h.solution j j.isLt, Vec.ofFn_apply]
  · exact h.permuted j j.isLt

theorem prepare_stored (b solution permuted : Vec α n) :
    loop 0 n (Checked.Factor.prepareRow b.toArray) (f.stored, solution.toArray, permuted.toArray) =
      .ok ((f.withSquare (symmetrized f.square)).stored,
        (Vec.ofFn fun j => f.square j j).toArray, b.toArray) := by
  have looped := loop_eq
    (fun p : Mat α n n × Vec α n × Vec α n =>
      ((f.withSquare p.1).stored, p.2.1.toArray, p.2.2.toArray))
    (prepared b) (map_val_finRange n)
    (fun p j _ => f.prepareRow_withSquare b p.1 p.2.1 p.2.2 j) (f.square, solution, permuted)
  rwa [foldl_prepared, f.withSquare_square] at looped

variable [Arith α]

/-- The products of a column of the working matrix with the elements of a vector. -/
theorem collect_entry_mul (b : Vec α n) (j : Fin n) {start stop : Nat} {is : List (Fin n)}
    (his : is.map Fin.val = List.range' start (stop - start)) :
    collect start stop (fun i => do return (← f.stored.entry i j) * (← read b.toArray i)) =
      .ok (is.map fun i => f.square i j * b i) := by
  refine collect_eq his fun i _ => ?_
  rw [entry_stored, ok_bind, read_toArray]
  rfl

theorem substitute_stored (diagonal z : Vec α n) {rank : Nat} (h : rank ≤ n) (j : Fin n) :
    f.stored.substitute diagonal.toArray rank z.toArray j =
      .ok (z.set j ((z j - Arith.sum (((indicesFrom n (j + 1)).filter (·.val < rank)).map fun i =>
        f.square i j * z i)) / diagonal j)).toArray := by
  unfold Checked.Factor.substitute
  rw [f.collect_entry_mul z j (map_val_filter_indicesFrom h), ok_bind, read_toArray, ok_bind,
    read_toArray, ok_bind, write_toArray]

theorem loopDown_substitute (diagonal b : Vec α n) {rank : Nat} (h : rank ≤ n) :
    loopDown rank (f.stored.substitute diagonal.toArray rank)
        (Vec.ofFn fun i => if i.val < rank then b i else 0).toArray =
      .ok (solveDampedTriangle f.square diagonal b rank).toArray :=
  loopDown_eq Vec.toArray _ (map_val_indicesBelow h)
    (fun z j _ => f.substitute_stored diagonal z h j) _

theorem solveDamped_stored (scaling b solution row permuted : Vec α n) :
    let solved := f.solveDamped scaling b row
    f.stored.solveDamped scaling.toArray b.toArray solution.toArray row.toArray permuted.toArray =
      .ok {
        factor := solved.factor.stored
        solution := solved.solution.toArray
        diagonal := solved.diagonal.toArray
        permuted := solved.permuted.toArray } := by
  intro solved
  let diagonal := Vec.ofFn fun j => f.square j j
  let start : Elimination α n := { square := symmetrized f.square, row, rotated := b, carry := 0 }
  let e := (List.finRange n).foldl (Elimination.finishRow diagonal scaling f.permutation) start
  let rank := firstIndex fun j => negligible (e.row j)
  have hrank : rank ≤ n := firstIndex_le _
  have fits (v : Vec α n) : v.toArray.size = f.stored.size := v.size_toArray
  have eliminated : loop 0 n (Checked.Elimination.finishRow diagonal.toArray scaling.toArray)
      (start.stored f) = .ok (e.stored f) :=
    loop_eq (Elimination.stored f) _ (map_val_finRange n)
      (fun e j _ => e.finishRow_stored f diagonal scaling j) start
  have found : findFrom (fun j => return negligible (← read e.row.toArray j)) e.row.toArray.size 0 =
      .ok rank := by
    rw [e.row.size_toArray]
    exact findFrom_eq fun j => by rw [read_toArray]; rfl
  have substituted := (f.withSquare e.square).loopDown_substitute e.row e.rotated hrank
  rw [square_withSquare] at substituted
  have scattered := (f.withSquare e.square).scatter_stored diagonal
    (solveDampedTriangle e.square e.row e.rotated rank)
  unfold Checked.Factor.solveDamped
  dsimp only
  rw [require_of (fits _), ok_bind, require_of (fits _), ok_bind, require_of (fits _), ok_bind,
    require_of (fits _), ok_bind, require_of (fits _), ok_bind]
  refine (bind_of_ok (f.prepare_stored b solution permuted) _).trans ?_
  refine (bind_of_ok eliminated _).trans ?_
  refine (bind_of_ok found _).trans ?_
  refine (bind_of_ok (fillBlock_toArray e.rotated 0 hrank) _).trans ?_
  refine (bind_of_ok substituted _).trans ?_
  exact bind_of_ok scattered _

theorem columnProduct_stored (b : Vec α n) {stop : Nat} (h : stop ≤ n) (j : Fin n) :
    f.stored.columnProduct b.toArray stop j =
      .ok (Arith.sum ((indicesBelow n stop).map fun i => f.square i j * b i)) := by
  unfold Checked.Factor.columnProduct
  rw [f.collect_entry_mul b j (map_val_indicesBelow h)]
  rfl

theorem rank_stored : f.stored.rank = .ok f.rank :=
  findFrom_eq (n := n) fun j => by rw [entry_stored]; rfl

/-- A loop that removes a component of the solution from some of the equations. -/
theorem loop_remove (z : Vec α n) (j : Fin n) (t : α) {start stop : Nat} {is : List (Fin n)}
    (his : is.map Fin.val = List.range' start (stop - start)) (nodup : is.Nodup) :
    loop start stop (fun z i => do write z i ((← read z i) - (← f.stored.entry i j) * t))
        z.toArray =
      .ok (Vec.ofFn fun i => if i ∈ is then z i - f.square i j * t else z i).toArray := by
  rw [← foldl_set_eq nodup fun i x => x - f.square i j * t]
  refine loop_eq Vec.toArray _ his (fun z i _ => ?_) z
  rw [read_toArray, ok_bind, entry_stored, ok_bind, write_toArray]

theorem solveColumn_stored (z : Vec α n) (j : Fin n) :
    let t := z j / f.square j j
    f.stored.solveColumn z.toArray j =
      .ok (Vec.ofFn fun i =>
        if i < j then z i - f.square i j * t else if i = j then t else z i).toArray := by
  intro t
  unfold Checked.Factor.solveColumn
  rw [read_toArray, ok_bind, entry_stored, ok_bind, write_toArray, ok_bind, read_toArray, ok_bind,
    Vec.set_apply, if_pos rfl,
    f.loop_remove _ j _ (map_val_indicesBelow j.isLt.le) (nodup_indicesBelow n j)]
  refine congrArg (Except.ok ∘ Vec.toArray) (Vec.ext fun i => ?_)
  simp only [Vec.ofFn_apply, mem_indicesBelow, Vec.set_apply, ← Fin.lt_def]
  rcases lt_trichotomy i j with h | rfl | h
  · rw [if_pos h, if_pos h, if_neg h.ne']
  · rw [if_neg (lt_irrefl _), if_pos rfl, if_neg (lt_irrefl _)]
  · rw [if_neg h.not_gt, if_neg h.ne, if_neg h.not_gt, if_neg h.ne']

theorem solveLeading_stored (b out : Vec α n) :
    f.stored.solveLeading f.rank b.toArray out.toArray = .ok (f.solveLeading b).toArray := by
  have hrank : f.rank ≤ n := firstIndex_le _
  unfold Checked.Factor.solveLeading
  rw [copy_toArray, ok_bind]
  refine (bind_of_ok (fillBlock_toArray b 0 hrank) _).trans ?_
  exact loopDown_eq Vec.toArray _ (map_val_indicesBelow hrank)
    (fun z j _ => f.solveColumn_stored z j) _

theorem solveTranspose_stored (b : Vec α n) :
    f.stored.solveTranspose b.toArray = .ok (f.solveTranspose b).toArray := by
  refine loop_eq Vec.toArray _ (map_val_finRange n) (fun z j _ => ?_) b
  rw [f.columnProduct_stored z j.isLt.le, ok_bind, read_toArray, ok_bind, entry_stored, ok_bind,
    write_toArray]

theorem solveDampedColumn_stored (diagonal z : Vec α n) (j : Fin n) :
    let t := z j / diagonal j
    f.stored.solveDampedColumn diagonal.toArray z.toArray j =
      .ok (Vec.ofFn fun i =>
        if j < i then z i - f.square i j * t else if i = j then t else z i).toArray := by
  intro t
  unfold Checked.Factor.solveDampedColumn
  rw [read_toArray, ok_bind, read_toArray, ok_bind, write_toArray, ok_bind, read_toArray, ok_bind,
    Vec.set_apply, if_pos rfl, size_stored,
    f.loop_remove _ j _ (map_val_indicesFrom n (j + 1)) (nodup_indicesFrom n (j + 1))]
  refine congrArg (Except.ok ∘ Vec.toArray) (Vec.ext fun i => ?_)
  simp only [Vec.ofFn_apply, mem_indicesFrom, Vec.set_apply, Nat.succ_le_iff, ← Fin.lt_def]
  rcases lt_trichotomy i j with h | rfl | h
  · rw [if_neg h.not_gt, if_neg h.ne', if_neg h.not_gt, if_neg h.ne]
  · rw [if_neg (lt_irrefl _), if_pos rfl, if_neg (lt_irrefl _)]
  · rw [if_pos h, if_pos h, if_neg h.ne]

theorem solveDampedTranspose_stored (diagonal b : Vec α n) :
    f.stored.solveDampedTranspose diagonal.toArray b.toArray =
      .ok (f.solveDampedTranspose diagonal b).toArray :=
  loop_eq Vec.toArray _ (map_val_finRange n)
    (fun z j _ => f.solveDampedColumn_stored diagonal z j) b

theorem direction_stored (scaling scaled : Vec α n) (length : α) (out : Vec α n) :
    f.stored.direction scaling.toArray scaled.toArray length out.toArray =
      .ok (Vec.ofFn fun j =>
        scaling (f.permutation j) * (scaled (f.permutation j) / length)).toArray := by
  have size : f.stored.permutation.size = n := Vec.size_toArray _
  let value (j : Fin n) : α := scaling (f.permutation j) * (scaled (f.permutation j) / length)
  unfold Checked.Factor.direction
  rw [size, ← foldl_set_all value out]
  refine loop_eq Vec.toArray _ (map_val_finRange n) (fun out j _ => ?_) out
  rw [read_permutation, ok_bind, read_toArray, ok_bind, read_toArray, ok_bind, write_toArray]

theorem scaledGradient_stored (scaling b out : Vec α n) :
    f.stored.scaledGradient scaling.toArray b.toArray out.toArray =
      .ok (Vec.ofFn fun j => f.transposeMul b j / scaling (f.permutation j)).toArray := by
  have size : f.stored.permutation.size = n := Vec.size_toArray _
  unfold Checked.Factor.scaledGradient
  rw [size, ← foldl_set_all (fun j => f.transposeMul b j / scaling (f.permutation j)) out]
  refine loop_eq Vec.toArray _ (map_val_finRange n) (fun out j _ => ?_) out
  rw [f.columnProduct_stored b j.isLt, ok_bind, read_permutation, ok_bind, read_toArray, ok_bind,
    write_toArray, transposeMul, Vec.ofFn_apply]

end Triangular

def Subproblem.stored (p : Subproblem α n) : Checked.Subproblem α where
  scaling := p.scaling.toArray
  projected := p.projected.toArray
  radius := p.radius
  tuning := p.tuning

def SearchOutcome.stored (o : SearchOutcome α m n) : Checked.SearchOutcome α where
  damping := o.damping
  passes := o.passes
  step := o.step.toArray
  factor := o.factor.stored
  memory := .ofBuffers o.buffers
  log := o.log

def SearchPass.stored (t : SearchPass α m n) : Checked.SearchPass α where
  damping := t.damping
  length := t.length
  excess := t.excess
  factor := t.solved.factor.stored
  step := t.solved.solution.toArray
  memory := ⟨t.solved.diagonal.toArray, t.weights.toArray, t.scaled.toArray⟩

def SearchState.stored (s : SearchState α m n) (step : Vec α n) : Checked.SearchState α where
  damping := s.damping
  lower := s.lower
  upper := s.upper
  excess := s.excess
  factor := s.factor.stored
  step := step.toArray
  memory := .ofBuffers s.buffers
  passes := s.passes
  log := s.log

theorem SearchMemory.resized_ofBuffers [Zero α] (b : SearchBuffers α n) :
    (ofBuffers b).resized n = ofBuffers b :=
  if_pos b.diagonal.size_toArray

variable [Scalar α]

namespace Subproblem

variable (p : Subproblem α n)

theorem scaled_stored (out step : Vec α n) :
    p.stored.scaled out.toArray step.toArray = .ok (p.scaled step).toArray := by
  unfold Checked.Subproblem.scaled
  refine (bind_of_ok (copy_toArray out p.scaling) _).trans ?_
  rw [combine_toArray]
  rfl

theorem newton_stored (excess : α) (w : Vec α n) :
    p.stored.newton excess w.toArray = p.newton excess w := by
  unfold Checked.Subproblem.newton
  rw [w.toList_toArray]
  rfl

/-- The scratch vector holds the solution that the bound is computed from, if there is one. -/
theorem lowerBound_stored (f : Triangular α m n) (scaled out : Vec α n) (length excess : α) :
    ∃ w : Vec α n, p.stored.lowerBound f.stored f.rank scaled.toArray out.toArray length excess =
      .ok (p.lowerBound f scaled length excess, w.toArray) := by
  unfold Checked.Subproblem.lowerBound lowerBound
  rw [Triangular.size_stored]
  by_cases hrank : n ≤ f.rank
  · refine ⟨f.solveTranspose (p.direction f.permutation scaled length), ?_⟩
    rw [if_pos hrank, if_pos hrank]
    refine (bind_of_ok (f.direction_stored p.scaling scaled length out) _).trans ?_
    refine (bind_of_ok (f.solveTranspose_stored _) _).trans ?_
    rw [newton_stored]
    rfl
  · refine ⟨out, ?_⟩
    rw [if_neg hrank, if_neg hrank]
    rfl

end Subproblem

namespace SearchState

variable (p : Subproblem α n) (s : SearchState α m n) (step : Vec α n)

theorem solve_stored : (s.stored step).solve p.stored = .ok (s.solve p).stored := by
  let damping := Subproblem.restarted (s.stored step).damping (s.stored step).upper
  let weights := p.scaling.map (· * Arith.sqrt damping)
  have weighted : p.scaling.toArray.map (· * Arith.sqrt damping) = weights.toArray :=
    (Vec.toArray_map _ _).symm
  have solved := s.factor.solveDamped_stored weights p.projected step s.buffers.diagonal
    s.buffers.second
  unfold Checked.SearchState.solve
  refine (bind_of_ok (copy_toArray s.buffers.first p.scaling) _).trans ?_
  rw [weighted]
  refine (bind_of_ok solved _).trans ?_
  refine (bind_of_ok (p.scaled_stored _ _) _).trans ?_
  rw [Vec.toList_toArray]
  rfl

theorem outcome_stored (t : SearchPass α m n) :
    (s.stored step).outcome t.stored = (s.outcome t).stored := by
  have negated : t.stored.step.map (-·) = (t.solved.solution.map (-·)).toArray :=
    (Vec.toArray_map _ _).symm
  unfold Checked.SearchState.outcome
  rw [negated]
  rfl

theorem settles_stored (t : SearchPass α m n) :
    (s.stored step).settles p.stored t.stored = s.settles p t :=
  rfl

theorem corrected_stored :
    (s.stored step).corrected p.stored (s.solve p).stored =
      .ok ((s.corrected p (s.solve p)).stored (s.solve p).solved.solution) := by
  let t := s.solve p
  have direction := t.solved.factor.direction_stored p.scaling t.scaled t.length t.weights
  unfold Checked.SearchState.corrected
  refine (bind_of_ok direction _).trans ?_
  refine (bind_of_ok (t.solved.factor.solveDampedTranspose_stored t.solved.diagonal _) _).trans ?_
  rw [p.newton_stored]
  rfl

theorem run_stored (further : Nat) :
    Checked.SearchState.run p.stored further (s.stored step) = .ok (run p further s).stored := by
  induction further generalizing s step with
  | zero =>
    refine (bind_of_ok (s.solve_stored p step) _).trans ?_
    rw [outcome_stored]
    rfl
  | succ further ih =>
    refine (bind_of_ok (s.solve_stored p step) _).trans ?_
    rw [settles_stored, outcome_stored, run]
    by_cases settled : s.settles p (s.solve p)
    · rw [if_pos settled, if_pos settled]
      rfl
    · rw [if_neg settled, if_neg settled]
      refine (bind_of_ok (s.corrected_stored p step) _).trans ?_
      exact ih _ _

end SearchState

namespace Subproblem

variable (p : Subproblem α n)

theorem search_stored (f : Triangular α m n) (estimate : α) (step : Vec α n)
    (buffers : SearchBuffers α n) :
    p.stored.search f.stored estimate step.toArray (.ofBuffers buffers) =
      .ok (p.search f estimate step buffers).stored := by
  let permuted := f.solveLeading p.projected
  let solution := scatter f.permutation step permuted
  let scaled := p.scaled solution
  let length := norm scaled
  let excess := length - p.radius
  have fits_scaling : p.stored.scaling.size = f.stored.size := p.scaling.size_toArray
  have fits_projected : p.stored.projected.size = f.stored.size := p.projected.size_toArray
  have fits_step : step.toArray.size = f.stored.size := step.size_toArray
  unfold Checked.Subproblem.search
  dsimp only
  rw [require_of fits_scaling, ok_bind, require_of fits_projected, ok_bind, require_of fits_step,
    ok_bind, Triangular.size_stored, SearchMemory.resized_ofBuffers]
  refine (bind_of_ok f.rank_stored _).trans ?_
  refine (bind_of_ok (f.solveLeading_stored p.projected buffers.first) _).trans ?_
  refine (bind_of_ok (f.scatter_stored step permuted) _).trans ?_
  refine (bind_of_ok (p.scaled_stored buffers.second solution) _).trans ?_
  rw [scaled.toList_toArray]
  by_cases inside : excess ≤ p.tuning.searchTolerance * p.radius
  · refine (if_pos inside).trans ?_
    have searched : p.search f estimate step buffers =
        { damping := 0
          passes := 0
          step := solution.map (-·)
          factor := f
          buffers := { buffers with first := permuted, second := scaled }
          log := [.stepInside length p.radius] } := if_pos inside
    rw [← Vec.toArray_map, searched]
    rfl
  · refine (if_neg inside).trans ?_
    obtain ⟨w, bound⟩ := p.lowerBound_stored f scaled permuted length excess
    let gradient := p.scaledGradient f
    let lower := p.lowerBound f scaled length excess
    let upper := p.upperBound (norm gradient)
    let damping := Arith.minNum (Arith.maxNum estimate lower) upper
    let started : SearchState α m n :=
      { damping := if damping == 0 then norm gradient / length else damping
        lower
        upper
        excess
        factor := f
        buffers := { buffers with first := gradient, second := scaled }
        passes := 0
        log := [] }
    have searched : p.search f estimate step buffers =
        SearchState.run p (p.tuning.maxSearchPasses - 1) started := if_neg inside
    refine (bind_of_ok bound _).trans ?_
    refine (bind_of_ok (f.scaledGradient_stored p.scaling p.projected w) _).trans ?_
    rw [Vec.toList_toArray, searched]
    exact started.run_stored p solution _

end Subproblem

end LeastSquares
