namespace LeastSquares

structure Vec (α : Type) (n : Nat) where
  toVector : Vector α n
deriving DecidableEq, Repr

namespace Vec

variable {α β : Type} {n : Nat}

def get (v : Vec α n) (i : Fin n) : α :=
  v.toVector[i]

instance : CoeFun (Vec α n) fun _ => Fin n → α := ⟨get⟩

def ofFn (f : Fin n → α) : Vec α n :=
  ⟨Vector.ofFn f⟩

@[simp] theorem ofFn_apply (f : Fin n → α) (i : Fin n) : ofFn f i = f i := by
  simp [ofFn, get]

@[ext] theorem ext {v w : Vec α n} (h : ∀ i, v i = w i) : v = w := by
  obtain ⟨v⟩ := v
  obtain ⟨w⟩ := w
  congr
  exact Vector.ext fun i hi => by simpa [get] using h ⟨i, hi⟩

def fill (n : Nat) (a : α) : Vec α n :=
  ofFn fun _ => a

@[simp] theorem fill_apply (a : α) (i : Fin n) : fill n a i = a := by
  simp [fill]

def set (v : Vec α n) (i : Fin n) (a : α) : Vec α n :=
  ⟨v.toVector.set i a⟩

theorem set_apply (v : Vec α n) (i j : Fin n) (a : α) :
    v.set i a j = if i = j then a else v j := by
  simp [set, get, Vector.getElem_set, Fin.ext_iff]

def swap (v : Vec α n) (i j : Fin n) : Vec α n :=
  (v.set i (v j)).set j (v i)

theorem swap_apply (v : Vec α n) (i j k : Fin n) :
    v.swap i j k = if j = k then v i else if i = k then v j else v k := by
  simp [swap, set_apply]

theorem swap_self (v : Vec α n) (i : Fin n) : v.swap i i = v := by
  ext k
  rw [swap_apply]
  split
  · rename_i h
    rw [h]
  · rfl

def map (f : α → β) (v : Vec α n) : Vec β n :=
  ofFn fun i => f (v i)

@[simp] theorem map_apply (f : α → β) (v : Vec α n) (i : Fin n) : v.map f i = f (v i) := by
  simp [map]

def leading {k : Nat} (v : Vec α n) (h : k ≤ n) : Vec α k :=
  ofFn fun i => v (i.castLE h)

@[simp] theorem leading_apply {k : Nat} (v : Vec α n) (h : k ≤ n) (i : Fin k) :
    v.leading h i = v (i.castLE h) := by
  simp [leading]

def toList (v : Vec α n) : List α :=
  (List.finRange n).map v

@[simp] theorem length_toList (v : Vec α n) : v.toList.length = n := by
  simp [toList]

def toArray (v : Vec α n) : Array α :=
  v.toVector.toArray

@[simp] theorem size_toArray (v : Vec α n) : v.toArray.size = n := by
  simp [toArray]

@[simp] theorem toList_toArray (v : Vec α n) : v.toArray.toList = v.toList := by
  refine List.ext_getElem (by simp [toArray]) fun i _ _ => ?_
  simp [toList, toArray, get]

theorem toArray_injective {v w : Vec α n} (h : v.toArray = w.toArray) : v = w := by
  obtain ⟨v⟩ := v
  obtain ⟨w⟩ := w
  exact congrArg Vec.mk (Vector.toArray_inj.mp h)

def ofArray (xs : Array α) : Vec α xs.size :=
  ⟨⟨xs, rfl⟩⟩

def ofArray? (n : Nat) (xs : Array α) : Option (Vec α n) :=
  if h : xs.size = n then some ⟨⟨xs, h⟩⟩ else none

@[simp] theorem ofArray?_toArray (v : Vec α n) : ofArray? n v.toArray = some v := by
  simp [ofArray?, toArray]

theorem eq_of_ofArray? {xs : Array α} {v : Vec α n} (h : ofArray? n xs = some v) :
    xs = v.toArray := by
  unfold ofArray? at h
  split at h
  · cases h
    rfl
  · cases h

theorem ofArray?_isSome_iff {xs : Array α} : (ofArray? n xs).isSome ↔ xs.size = n := by
  unfold ofArray?
  split <;> simp_all

end Vec

end LeastSquares
