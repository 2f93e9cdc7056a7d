import LeastSquares.Checked.Access
import LeastSquares.Proofs.Loops
import Mathlib.Data.List.Intervals
import Mathlib.Order.Fin.Basic

namespace LeastSquares.Checked

variable {α β γ : Type} {m n : Nat}

@[simp] theorem ok_bind {ε : Type} (x : β) (f : β → Except ε γ) : (Except.ok x >>= f) = f x :=
  rfl

theorem bind_of_ok {ε : Type} {x : Except ε β} {y : β} (h : x = .ok y) (f : β → Except ε γ) :
    (x >>= f) = f y := by
  rw [h, ok_bind]

theorem bind_of_error {ε : Type} {x : Except ε β} {e : ε} (h : x = .error e) (f : β → Except ε γ) :
    (x >>= f) = .error e := by
  rw [h]
  rfl

@[simp] theorem pure_eq_ok {ε : Type} (x : β) : (pure x : Except ε β) = .ok x :=
  rfl

@[simp] theorem require_of {c : Prop} [Decidable c] (h : c) (fault : Fault) :
    require c fault = .ok () :=
  if_pos h

theorem require_of_not {c : Prop} [Decidable c] (h : ¬c) (fault : Fault) :
    require c fault = .error fault :=
  if_neg h

section Vec

variable (v w : Vec β n) (i j : Fin n)

@[simp] theorem read_toArray : read v.toArray i = .ok (v i) := by
  unfold read
  rw [Array.getElem?_eq_getElem (by rw [v.size_toArray]; exact i.isLt)]
  rfl

@[simp] theorem write_toArray (x : β) : write v.toArray i x = .ok (v.set i x).toArray :=
  dif_pos (by rw [v.size_toArray]; exact i.isLt)

@[simp] theorem swap_toArray : swap v.toArray i j = .ok (v.swap i j).toArray := by
  simp [swap, Vec.swap]

@[simp] theorem copy_toArray : copy v.toArray w.toArray = .ok w.toArray := by
  simp [copy]

@[simp] theorem combine_toArray (f : β → β → β) :
    combine f v.toArray w.toArray = .ok (Vec.ofFn fun i => f (v i) (w i)).toArray := by
  have h : v.toArray.zipWith f w.toArray = (Vec.ofFn fun i => f (v i) (w i)).toArray := by
    refine Array.ext (by simp) fun i _ _ => ?_
    simp [Vec.toArray, Vec.ofFn, Vec.get]
  simp [combine, h]

theorem fillBlock_toArray (x : β) {start : Nat} (h : start ≤ n) :
    fillBlock v.toArray start (n - start) x =
      .ok (Vec.ofFn fun i => if i.val < start then v i else x).toArray := by
  have hfit : start + (n - start) ≤ v.toArray.size := by
    rw [v.size_toArray]
    omega
  rw [fillBlock, require_of hfit]
  refine congrArg Except.ok (Array.ext (by simp) fun i hi _ => ?_)
  have hin : i < n := by simpa using hi
  have hiff : (start ≤ i ∧ i < start + (n - start)) ↔ ¬i < start := by omega
  simp only [Array.getElem_mapIdx, hiff]
  by_cases hlt : i < start
  · simp [hlt, Vec.toArray, Vec.ofFn, Vec.get]
  · simp [hlt, Vec.toArray, Vec.ofFn]

theorem block_toArray {k : Nat} (h : k ≤ n) :
    block v.toArray 0 k = .ok (v.leading h).toArray := by
  have hfit : 0 + k ≤ v.toArray.size := by
    rw [v.size_toArray, Nat.zero_add]
    exact h
  rw [block, require_of hfit]
  refine congrArg Except.ok (Array.ext ?_ fun i _ _ => ?_)
  · simp [Vec.toArray, Vec.leading, h]
  · simp [Vec.toArray, Vec.leading, Vec.ofFn, Vec.get]

end Vec

section Mat

variable (a : Mat α m n) (i : Fin m) (j k : Fin n)

@[simp] theorem get_mk : (⟨m, n, a⟩ : Jacobian α).get i j = .ok (a i j) :=
  dif_pos ⟨i.isLt, j.isLt⟩

@[simp] theorem set_mk (x : α) : (⟨m, n, a⟩ : Jacobian α).set i j x = .ok ⟨m, n, a.set i j x⟩ :=
  dif_pos ⟨i.isLt, j.isLt⟩

@[simp] theorem column_mk : column ⟨m, n, a⟩ j = .ok (a.col j).toList :=
  dif_pos j.isLt

@[simp] theorem swapColumns_mk : swapColumns ⟨m, n, a⟩ j k = .ok ⟨m, n, a.swapCols j k⟩ :=
  dif_pos ⟨j.isLt, k.isLt⟩

end Mat

section Indices

/-- The indices from `start` on and below `stop`, as numbers. -/
theorem map_val_filter_indicesFrom {start stop : Nat} (h : stop ≤ n) :
    ((indicesFrom n start).filter (·.val < stop)).map Fin.val =
      List.range' start (stop - start) := by
  have hmap (p : Nat → Bool) (is : List (Fin n)) :
      (is.filter fun i => p i.val).map Fin.val = (is.map Fin.val).filter p :=
    List.filter_map.symm
  rw [indicesFrom, hmap (fun i => decide (i < stop)), hmap (fun i => decide (start ≤ i)),
    List.map_coe_finRange_eq_range, ← List.Ico.zero_bot, List.Ico.filter_le, List.Ico.filter_lt]
  simp [List.Ico, h]

theorem map_val_indicesFrom (n start : Nat) :
    (indicesFrom n start).map Fin.val = List.range' start (n - start) := by
  rw [← map_val_filter_indicesFrom le_rfl, List.filter_eq_self.mpr]
  exact fun i _ => decide_eq_true i.isLt

theorem map_val_indicesBelow {stop : Nat} (h : stop ≤ n) :
    (indicesBelow n stop).map Fin.val = List.range' 0 (stop - 0) := by
  have hfrom : indicesFrom n 0 = List.finRange n := by simp [indicesFrom]
  rw [← map_val_filter_indicesFrom h, hfrom]
  rfl

theorem map_val_finRange (n : Nat) :
    (List.finRange n).map Fin.val = List.range' 0 (n - 0) := by
  rw [List.map_coe_finRange_eq_range, List.range_eq_range', Nat.sub_zero]

theorem drop_finRange (n start : Nat) : (List.finRange n).drop start = indicesFrom n start := by
  have injective : Function.Injective (Fin.val : Fin n → Nat) := fun _ _ => Fin.ext
  refine List.map_injective_iff.mpr injective ?_
  rw [List.map_drop, List.map_coe_finRange_eq_range, map_val_indicesFrom, List.range_eq_range',
    List.drop_range', Nat.zero_add, Nat.mul_one]

theorem columnBlock_mk (a : Mat α m n) (j : Fin n) {start : Nat} (h : start ≤ m) :
    columnBlock ⟨m, n, a⟩ start (m - start) j =
      .ok ((indicesFrom m start).map fun i => a i j) := by
  have hfit : start + (m - start) ≤ m := by omega
  rw [columnBlock, require_of hfit, ok_bind, column_mk, ok_bind, Vec.toList, ← List.map_drop,
    drop_finRange, List.take_of_length_le]
  · rfl
  · rw [List.length_map, ← List.length_map (f := Fin.val), map_val_indicesFrom,
      List.length_range']

end Indices

section Loops

variable {start stop : Nat} {is : List (Fin n)} {step : β → Nat → Except Fault β} (store : γ → β)
  (next : γ → Fin n → γ)

/-- A loop that steps from states in storage to states in storage is the loop over the states. An
invariant may be needed to see that it does. -/
theorem foldlM_of_invariant (I : γ → Prop)
    (hstep : ∀ c, I c → ∀ i ∈ is, step (store c) i = .ok (store (next c i)) ∧ I (next c i)) {c : γ}
    (hc : I c) : (is.map Fin.val).foldlM step (store c) = .ok (store (is.foldl next c)) := by
  induction is generalizing c with
  | nil => rfl
  | cons i is ih =>
    obtain ⟨hok, hnext⟩ := hstep c hc i (List.mem_cons_self ..)
    rw [List.map_cons, List.foldlM_cons, hok, ok_bind, List.foldl_cons]
    exact ih (fun c hc i hi => hstep c hc i (List.mem_cons_of_mem _ hi)) hnext

theorem loop_of_invariant (his : is.map Fin.val = List.range' start (stop - start)) (I : γ → Prop)
    (hstep : ∀ c, I c → ∀ i ∈ is, step (store c) i = .ok (store (next c i)) ∧ I (next c i)) {c : γ}
    (hc : I c) : loop start stop step (store c) = .ok (store (is.foldl next c)) := by
  rw [loop, ← his]
  exact foldlM_of_invariant store next I hstep hc

theorem loop_eq (his : is.map Fin.val = List.range' start (stop - start))
    (hstep : ∀ c, ∀ i ∈ is, step (store c) i = .ok (store (next c i))) (c : γ) :
    loop start stop step (store c) = .ok (store (is.foldl next c)) :=
  loop_of_invariant store next his (fun _ => True) (fun c _ i hi => ⟨hstep c i hi, trivial⟩) trivial

theorem loopDown_eq (his : is.map Fin.val = List.range' 0 (stop - 0))
    (hstep : ∀ c, ∀ i ∈ is, step (store c) i = .ok (store (next c i))) (c : γ) :
    loopDown stop step (store c) = .ok (store (is.reverse.foldl next c)) := by
  rw [loopDown, List.range_eq_range', ← Nat.sub_zero stop, ← his, ← List.map_reverse]
  refine foldlM_of_invariant store next (fun _ => True) (fun c _ i hi => ⟨hstep c i ?_, trivial⟩)
    trivial
  exact List.mem_reverse.mp hi

/-- A loop whose steps do the same on a part of the state does the same on that part. -/
theorem loop_map {step' : γ → Nat → Except Fault γ} (part : β → γ)
    (hstep : ∀ s i, (step s i).map part = step' (part s) i) (s : β) :
    (loop start stop step s).map part = loop start stop step' (part s) := by
  unfold loop
  induction List.range' start (stop - start) generalizing s with
  | nil => rfl
  | cons i is ih =>
    rw [List.foldlM_cons, List.foldlM_cons, ← hstep]
    cases step s i with
    | error fault => rfl
    | ok next => exact ih next

theorem collect_eq (his : is.map Fin.val = List.range' start (stop - start))
    {f : Nat → Except Fault β} {g : Fin n → β} (h : ∀ i ∈ is, f i = .ok (g i)) :
    collect start stop f = .ok (is.map g) := by
  rw [collect, ← his]
  clear his
  induction is with
  | nil => rfl
  | cons i is ih =>
    rw [List.map_cons, List.mapM_cons, h i (List.mem_cons_self ..), ok_bind,
      ih fun i hi => h i (List.mem_cons_of_mem _ hi)]
    rfl

theorem findFrom_eq_findIdx {p : Nat → Except Fault Bool} {q : Fin n → Bool}
    (h : ∀ i : Fin n, p i = .ok (q i)) {count j : Nat}
    (his : is.map Fin.val = List.range' j count) :
    findFrom p count j = .ok (j + is.findIdx q) := by
  induction is generalizing count j with
  | nil =>
    obtain rfl : count = 0 := by simpa using his
    rfl
  | cons i is ih =>
    cases count with
    | zero => simp at his
    | succ count =>
      rw [List.map_cons, List.range'_succ, List.cons.injEq] at his
      obtain ⟨rfl, his⟩ := his
      rw [findFrom, h, ok_bind, List.findIdx_cons]
      cases q i with
      | true => rfl
      | false =>
        rw [if_neg Bool.false_ne_true, ih his]
        simp [Nat.add_assoc, Nat.add_comm 1]

theorem findFrom_eq {p : Nat → Except Fault Bool} {q : Fin n → Bool}
    (h : ∀ i : Fin n, p i = .ok (q i)) : findFrom p n 0 = .ok (firstIndex q) := by
  have found := findFrom_eq_findIdx h (map_val_finRange n)
  rwa [Nat.sub_zero, Nat.zero_add] at found

end Loops

section InPlace

/-- A loop that visits some elements of a vector and overwrites each in its place. -/
theorem foldl_set_apply {is : List (Fin n)} (his : is.Nodup) (f : Fin n → β → β) (v : Vec β n)
    (k : Fin n) :
    (is.foldl (fun v i => v.set i (f i (v i))) v) k = if k ∈ is then f k (v k) else v k := by
  induction is generalizing v with
  | nil => rfl
  | cons i is ih =>
    obtain ⟨hi, his⟩ := List.nodup_cons.mp his
    rw [List.foldl_cons, ih his]
    by_cases hk : i = k
    · subst hk
      simp [hi, Vec.set_apply]
    · simp [hk, Ne.symm hk, Vec.set_apply]

theorem foldl_set_eq {is : List (Fin n)} (his : is.Nodup) (f : Fin n → β → β) (v : Vec β n) :
    is.foldl (fun v i => v.set i (f i (v i))) v =
      .ofFn fun k => if k ∈ is then f k (v k) else v k := by
  ext k
  rw [foldl_set_apply his, Vec.ofFn_apply]

/-- A loop that overwrites all elements of a vector. -/
theorem foldl_set_all (f : Fin n → β) (v : Vec β n) :
    (List.finRange n).foldl (fun v i => v.set i (f i)) v = .ofFn f := by
  rw [foldl_set_eq (List.nodup_finRange n) fun i _ => f i]
  simp only [List.mem_finRange, if_true]

/-- A loop that visits some elements of two vectors and overwrites both in their places. -/
theorem foldl_set_pair {is : List (Fin n)} (his : is.Nodup) (f g : Fin n → β → β → β)
    (v w : Vec β n) :
    is.foldl
        (fun (p : Vec β n × Vec β n) i =>
          (p.1.set i (f i (p.1 i) (p.2 i)), p.2.set i (g i (p.1 i) (p.2 i))))
        (v, w) =
      (.ofFn fun k => if k ∈ is then f k (v k) (w k) else v k,
        .ofFn fun k => if k ∈ is then g k (v k) (w k) else w k) := by
  induction is generalizing v w with
  | nil => exact Prod.ext (Vec.ext fun k => by simp) (Vec.ext fun k => by simp)
  | cons i is ih =>
    obtain ⟨hi, his⟩ := List.nodup_cons.mp his
    rw [List.foldl_cons, ih his]
    refine Prod.ext (Vec.ext fun k => ?_) (Vec.ext fun k => ?_)
    all_goals
      by_cases hk : i = k
      · subst hk
        simp [hi, Vec.set_apply]
      · simp [hk, Ne.symm hk, Vec.set_apply]

theorem nodup_indicesFrom (n start : Nat) : (indicesFrom n start).Nodup :=
  (List.nodup_finRange n).filter _

theorem nodup_indicesBelow (n stop : Nat) : (indicesBelow n stop).Nodup :=
  (List.nodup_finRange n).filter _

/-- One component of a vector that a loop over the columns of an upper triangle changes in place. -/
theorem foldl_columns_apply (g : Fin n → Fin n → β → β) (js : List (Fin n)) (out : Vec β n)
    (i : Fin n) :
    js.foldl
        (fun (out : Vec β n) (j : Fin n) =>
          (indicesBelow n (j + 1)).foldl (fun out i => out.set i (g j i (out i))) out)
        out i =
      js.foldl (fun x j => if i ≤ j then g j i x else x) (out i) := by
  induction js generalizing out with
  | nil => rfl
  | cons j js ih =>
    rw [List.foldl_cons, List.foldl_cons, ih, foldl_set_apply (nodup_indicesBelow n (j + 1))]
    simp only [mem_indicesBelow, Nat.lt_succ_iff, Fin.le_def]

end InPlace

end LeastSquares.Checked
