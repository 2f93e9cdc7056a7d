import LeastSquares.Vec

namespace LeastSquares

structure Mat (α : Type) (m n : Nat) where
  columns : Vec (Vec α m) n
deriving DecidableEq, Repr

namespace Mat

variable {α : Type} {m n : Nat}

def get (a : Mat α m n) (i : Fin m) (j : Fin n) : α :=
  a.columns j i

instance : CoeFun (Mat α m n) fun _ => Fin m → Fin n → α := ⟨get⟩

def ofFn (f : Fin m → Fin n → α) : Mat α m n :=
  ⟨.ofFn fun j => .ofFn fun i => f i j⟩

@[simp] theorem ofFn_apply (f : Fin m → Fin n → α) (i : Fin m) (j : Fin n) :
    ofFn f i j = f i j := by
  simp [ofFn, get]

@[ext] theorem ext {a b : Mat α m n} (h : ∀ i j, a i j = b i j) : a = b := by
  obtain ⟨a⟩ := a
  obtain ⟨b⟩ := b
  congr
  ext j i
  exact h i j

def fill (m n : Nat) (x : α) : Mat α m n :=
  ofFn fun _ _ => x

@[simp] theorem fill_apply (x : α) (i : Fin m) (j : Fin n) : fill m n x i j = x := by
  simp [fill]

def col (a : Mat α m n) (j : Fin n) : Vec α m :=
  a.columns j

@[simp] theorem col_apply (a : Mat α m n) (i : Fin m) (j : Fin n) : a.col j i = a i j :=
  rfl

def setCol (a : Mat α m n) (j : Fin n) (c : Vec α m) : Mat α m n :=
  ⟨a.columns.set j c⟩

theorem setCol_apply (a : Mat α m n) (j k : Fin n) (c : Vec α m) (i : Fin m) :
    a.setCol j c i k = if j = k then c i else a i k := by
  simp only [setCol, get, Vec.set_apply]
  split <;> rfl

def set (a : Mat α m n) (i : Fin m) (j : Fin n) (x : α) : Mat α m n :=
  a.setCol j ((a.col j).set i x)

theorem set_apply (a : Mat α m n) (i k : Fin m) (j l : Fin n) (x : α) :
    a.set i j x k l = if i = k ∧ j = l then x else a k l := by
  simp only [set, setCol_apply, Vec.set_apply, col_apply]
  split <;> split <;> simp_all

def swapCols (a : Mat α m n) (j k : Fin n) : Mat α m n :=
  ⟨a.columns.swap j k⟩

theorem col_swapCols (a : Mat α m n) (j k l : Fin n) :
    (a.swapCols j k).col l = if k = l then a.col j else if j = l then a.col k else a.col l := by
  simp [swapCols, col, Vec.swap_apply]

theorem swapCols_self (a : Mat α m n) (j : Fin n) : a.swapCols j j = a := by
  rw [swapCols, Vec.swap_self]

def mapCols (f : Fin n → Vec α m → Vec α m) (a : Mat α m n) : Mat α m n :=
  ⟨.ofFn fun j => f j (a.col j)⟩

@[simp] theorem col_mapCols (f : Fin n → Vec α m → Vec α m) (a : Mat α m n) (j : Fin n) :
    (a.mapCols f).col j = f j (a.col j) := by
  simp [mapCols, col]

end Mat

end LeastSquares
