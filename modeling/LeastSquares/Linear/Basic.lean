import LeastSquares.Scalar

/-!
Dense vectors and matrices of a fixed size. A matrix is a vector of rows, so `a[i][j]` with
`i : Fin m` and `j : Fin n` is its entry. Vectors are read and changed at indices of type `Fin n`
alone, and each operation comes with the lemma that says what its entries are.

Loops over part of an index range are folds over the lists `upTo j`, `before j`, `starting j` and
`after j`, which hold the indices in increasing order.
-/

namespace LeastSquares

abbrev Mat (α : Type) (m n : Nat) := Vector (Vector α n) m

variable {α : Type} {m n : Nat}

/-! ### Index ranges -/

def before (j : Fin n) : List (Fin n) := (List.finRange n).filter (· < j)

def upTo (j : Fin n) : List (Fin n) := (List.finRange n).filter (· ≤ j)

def after (j : Fin n) : List (Fin n) := (List.finRange n).filter (j < ·)

def starting (j : Fin n) : List (Fin n) := (List.finRange n).filter (j ≤ ·)

@[simp] theorem mem_before {i j : Fin n} : i ∈ before j ↔ i < j := by simp [before]

@[simp] theorem mem_upTo {i j : Fin n} : i ∈ upTo j ↔ i ≤ j := by simp [upTo]

@[simp] theorem mem_after {i j : Fin n} : i ∈ after j ↔ j < i := by simp [after]

@[simp] theorem mem_starting {i j : Fin n} : i ∈ starting j ↔ j ≤ i := by simp [starting]

/-! ### Vectors -/

/-- An index of type `Fin n` is in range for every vector of length `n`. -/
instance instGetElemIndex : GetElem (Vector α n) (Fin n) α fun _ _ => True where
  getElem x i _ := x.get i

theorem getElem_eq_val (x : Vector α n) (i : Fin n) : x[i] = x[i.val] := rfl

theorem ext_getElem {x y : Vector α n} (h : ∀ i : Fin n, x[i] = y[i]) : x = y :=
  Vector.ext fun i hi => h ⟨i, hi⟩

def put (x : Vector α n) (i : Fin n) (v : α) : Vector α n := x.set i v i.isLt

def exchange (x : Vector α n) (i j : Fin n) : Vector α n := x.swap i j i.isLt j.isLt

def scaleBy [Mul α] (d x : Vector α n) : Vector α n := Vector.zipWith (· * ·) d x

section Entries

variable {β γ : Type}

@[simp] theorem getElem_ofFn (f : Fin n → α) (i : Fin n) : (Vector.ofFn f)[i] = f i := by
  simp [getElem_eq_val]

@[simp] theorem getElem_map (f : α → β) (x : Vector α n) (i : Fin n) : (x.map f)[i] = f x[i] := by
  simp [getElem_eq_val]

@[simp] theorem getElem_zipWith (f : α → β → γ) (x : Vector α n) (y : Vector β n) (i : Fin n) :
    (Vector.zipWith f x y)[i] = f x[i] y[i] := by
  simp [getElem_eq_val]

@[simp] theorem getElem_replicate (v : α) (i : Fin n) : (Vector.replicate n v)[i] = v := by
  simp [getElem_eq_val]

theorem getElem_put (x : Vector α n) (i j : Fin n) (v : α) :
    (put x i v)[j] = if i = j then v else x[j] := by
  simp [put, getElem_eq_val, Vector.getElem_set, Fin.ext_iff]

theorem put_put (x : Vector α n) (i : Fin n) (v w : α) : put (put x i v) i w = put x i w := by
  simp [put]

theorem put_self (x : Vector α n) (i : Fin n) : put x i x[i] = x := by
  simp [put, getElem_eq_val]

theorem getElem_exchange (x : Vector α n) (i j k : Fin n) :
    (exchange x i j)[k] = if k = i then x[j] else if k = j then x[i] else x[k] := by
  simp [exchange, getElem_eq_val, Vector.getElem_swap, Fin.ext_iff]

@[simp] theorem getElem_scaleBy [Mul α] (d x : Vector α n) (i : Fin n) :
    (scaleBy d x)[i] = d[i] * x[i] := by
  simp [scaleBy]

end Entries

/-! ### Matrices -/

namespace Mat

def ofFn (f : Fin m → Fin n → α) : Mat α m n := Vector.ofFn fun i => Vector.ofFn fun j => f i j

@[simp] theorem getElem_ofFn (f : Fin m → Fin n → α) (i : Fin m) (j : Fin n) :
    (ofFn f)[i][j] = f i j := by
  simp [ofFn]

def zero [Zero α] : Mat α m n := ofFn fun _ _ => 0

def column (a : Mat α m n) (j : Fin n) : Vector α m := a.map (·[j])

@[simp] theorem getElem_column (a : Mat α m n) (i : Fin m) (j : Fin n) :
    (a.column j)[i] = a[i][j] := by
  simp [column]

def ofColumns (columns : Vector (Vector α m) n) : Mat α m n := ofFn fun i j => columns[j][i]

@[simp] theorem getElem_ofColumns (columns : Vector (Vector α m) n) (i : Fin m) (j : Fin n) :
    (ofColumns columns)[i][j] = columns[j][i] := by
  simp [ofColumns]

def setEntry (a : Mat α m n) (i : Fin m) (j : Fin n) (v : α) : Mat α m n := put a i (put a[i] j v)

theorem getElem_setEntry (a : Mat α m n) (i k : Fin m) (j l : Fin n) (v : α) :
    (a.setEntry i j v)[k][l] = if i = k ∧ j = l then v else a[k][l] := by
  by_cases h : i = k
  · subst h
    simp [setEntry, getElem_put]
  · simp [setEntry, getElem_put, h]

def entries (a : Mat α m n) : List α := a.toList.flatMap (·.toList)

def mapEntries {β : Type} (f : α → β) (a : Mat α m n) : Mat β m n := a.map (·.map f)

def diagonal (a : Mat α n n) : Vector α n := Vector.ofFn fun i => a[i][i]

end Mat

/-! ### Selected components -/

def lastIndex? {k : Nat} (places : Vector (Fin n) k) (p : Fin n) : Option (Fin k) :=
  (List.finRange k).reverse.find? fun i => places[i] == p

/-- Writes component `c` of `values` into `x` where `places` says, for every `c`. -/
def overwrite {k : Nat} (x : Vector α n) (places : Vector (Fin n) k) (values : Vector α k) :
    Vector α n :=
  Vector.ofFn fun p => ((lastIndex? places p).map (values[·])).getD x[p]

/-- Puts component `j` of `z` where `pivot` sends `j`; this undoes a column exchange. -/
def unpermute [Zero α] (pivot : Vector (Fin n) n) (z : Vector α n) : Vector α n :=
  overwrite (Vector.replicate n 0) pivot z

end LeastSquares
