import LeastSquares.Proofs.Sharing

/-!
Computations that check every size and every index. In the library the length of a vector is part of
its type, and so is the range of an index. Here arrays have any size, matrices any shape, and
indices are numbers; before a part of the library is run on such data a check makes sure that the
sizes fit and that the indices are in range. What the types leave out is watched too: the ties that
are recomputed.

`Follows` says that such a computation does what a run of the library does, and that none of its
checks fails. Its rules go through a computation step by step.
-/

namespace LeastSquares

variable {α β γ : Type} {n m k : ℕ}

/-! ### Guarded computations -/

/-- A journal, and the vectors whose ties were recomputed. -/
structure Watch (α : Type) (n : ℕ) where
  journal : Journal α n
  ties : Array (Vector α n)

def Watch.empty : Watch α n := ⟨.empty, #[]⟩

inductive Stop (α : Type) where
  | halted (halt : Halt α)
  /-- An index was out of range, or sizes differed. -/
  | outOfRange
  /-- The buffer for a Jacobian by differences has the wrong shape, or there are more or fewer rules
  than columns. -/
  | wrongBuffer (rows columns expectedRows expectedColumns rules : ℕ)

abbrev Guarded (α : Type) (n : ℕ) := ExceptT (Stop α) (StateM (Watch α n))

namespace Guarded

def resume (g : Guarded α n β) (w : Watch α n) : Except (Stop α) β × Watch α n :=
  (ExceptT.run g).run w

def ofRun (run : Run α n β) : Guarded α n β := ExceptT.mk fun w =>
  ((run.resume w.journal).1.mapError .halted, ⟨(run.resume w.journal).2, w.ties⟩)

def tie (x : Vector α n) : Guarded α n Unit := modify fun w => { w with ties := w.ties.push x }

def inRange : Option β → Guarded α n β
  | some b => pure b
  | none => throw .outOfRange

def sizes (e : Except SizeMismatch β) : Guarded α n β := ofRun (Run.ofExcept (e.mapError .sizes))

def read (a : Array β) (i : ℕ) : Guarded α n β := inRange a[i]?

def sized (l : ℕ) (a : Array β) : Guarded α n (Vector β l) :=
  if h : a.size = l then pure ⟨a, h⟩ else throw .outOfRange

def index (l i : ℕ) : Guarded α n (Fin l) :=
  if h : i < l then pure ⟨i, h⟩ else throw .outOfRange

def store (out source : Array β) : Guarded α n (Array β) :=
  if out.size = source.size then pure source else throw .outOfRange

end Guarded

structure Table (α : Type) where
  rows : ℕ
  columns : ℕ
  entries : Mat α rows columns

namespace Table

def ofMat (a : Mat α m k) : Table α := ⟨m, k, a⟩

/-- What a buffer leaves behind that is moved elsewhere. -/
def empty : Table α := ⟨0, 0, #v[]⟩

def shaped (m k : ℕ) (t : Table α) : Guarded α n (Mat α m k) :=
  if h : t.rows = m ∧ t.columns = k then pure (h.1 ▸ h.2 ▸ t.entries) else throw .outOfRange

def assign (t source : Table α) : Guarded α n (Table α) := do
  let a : Mat α source.rows source.columns ← t.shaped source.rows source.columns
  return .ofMat (a.assign source.entries)

end Table

/-! ### What a guarded computation follows -/

namespace Guarded

@[simp] theorem resume_pure (b : β) (w : Watch α n) :
    (pure b : Guarded α n β).resume w = (.ok b, w) := rfl

@[simp] theorem resume_throw (stop : Stop α) (w : Watch α n) :
    (throw stop : Guarded α n β).resume w = (.error stop, w) := rfl

@[simp] theorem resume_tie (x : Vector α n) (w : Watch α n) :
    (tie x).resume w = (.ok (), { w with ties := w.ties.push x }) := rfl

@[simp] theorem resume_ofRun (run : Run α n β) (w : Watch α n) :
    (ofRun run).resume w =
      ((run.resume w.journal).1.mapError .halted, ⟨(run.resume w.journal).2, w.ties⟩) := rfl

theorem resume_bind (g : Guarded α n β) (f : β → Guarded α n γ) (w : Watch α n) :
    (g >>= f).resume w =
      match g.resume w with
      | (.ok b, w') => (f b).resume w'
      | (.error stop, w') => (.error stop, w') := by
  simp only [resume, ExceptT.run_bind, StateT.run_bind]
  change _ = match (ExceptT.run g).run w with
      | (.ok b, w') => (f b).resume w'
      | (.error stop, w') => (.error stop, w')
  rcases (ExceptT.run g).run w with ⟨_ | _, _⟩ <;> simp [resume] <;> rfl

/-- The computation halts where the run does, keeps the same journal, and where the run comes to an
end comes to a related result. No check of its own fails. -/
def Follows (R : β → γ → Prop) (run : Run α n β) (g : Guarded α n γ) : Prop :=
  ∀ w, (∃ halt w', run.resume w.journal = (.error halt, w'.journal) ∧
      g.resume w = (.error (.halted halt), w')) ∨
    ∃ b c w', run.resume w.journal = (.ok b, w'.journal) ∧ g.resume w = (.ok c, w') ∧ R b c

namespace Follows

variable {β' γ' : Type} {R : β → γ → Prop} {S : β' → γ' → Prop}

theorem pure {b : β} {c : γ} (h : R b c) : Follows R (pure b : Run α n β) (pure c) :=
  fun w => .inr ⟨b, c, w, rfl, rfl, h⟩

theorem throw (halt : Halt α) :
    Follows R (throw halt : Run α n β) (throw (.halted halt) : Guarded α n γ) :=
  fun w => .inl ⟨halt, w, rfl, rfl⟩

theorem ofRun (run : Run α n β) : Follows Eq run (ofRun run) := by
  intro w
  rw [resume_ofRun]
  rcases h : run.resume w.journal with ⟨halt | b, j⟩
  · exact .inl ⟨halt, ⟨j, w.ties⟩, rfl, rfl⟩
  · exact .inr ⟨b, b, ⟨j, w.ties⟩, rfl, rfl, rfl⟩

theorem bind {run : Run α n β} {g : Guarded α n γ} {f : β → Run α n β'} {f' : γ → Guarded α n γ'}
    (hrun : Follows R run g) (hf : ∀ b c, R b c → Follows S (f b) (f' c)) :
    Follows S (run >>= f) (g >>= f') := by
  intro w
  rw [Run.resume_bind, resume_bind]
  rcases hrun w with ⟨halt, w', h, h'⟩ | ⟨b, c, w', h, h', hbc⟩
  · rw [h, h']
    exact .inl ⟨halt, w', rfl, rfl⟩
  · rw [h, h']
    exact hf b c hbc w'

theorem aside {P : β' → Prop} {run : Run α n β} {g : Guarded α n β'} {f : β' → Guarded α n γ}
    (hg : Follows (fun _ : Unit => P) (Pure.pure ()) g) (hf : ∀ c, P c → Follows R run (f c)) :
    Follows R run (g >>= f) := by
  rw [← pure_bind () fun _ => run]
  exact hg.bind fun _ c hc => hf c hc

theorem tie {run : Run α n β} {g : Unit → Guarded α n γ} (x : Vector α n)
    (h : Follows R run (g ())) : Follows R run (tie x >>= g) :=
  aside (P := fun _ => True) (fun w => .inr ⟨(), (), ⟨w.journal, w.ties.push x⟩, rfl, rfl, trivial⟩)
    fun _ _ => h

theorem then_pure {run : Run α n β} {g : Guarded α n γ} {f : γ → Guarded α n γ'} {T : β → γ' → Prop}
    (hrun : Follows R run g) (hf : ∀ b c, R b c → ∃ c', f c = Pure.pure c' ∧ T b c') :
    Follows T run (g >>= f) := by
  rw [← bind_pure run]
  refine hrun.bind fun b c hbc => ?_
  obtain ⟨c', hc, hT⟩ := hf b c hbc
  rw [hc]
  exact pure hT

theorem congruence : IsCongruence (M := Run α n) (N := Guarded α n) fun _ => Follows Eq :=
  ⟨fun _ => pure rfl, fun hrun hf => hrun.bind fun c _ hc => hc ▸ hf c⟩

theorem resume_eq {run : Run α n β} {g : Guarded α n β} (h : Follows Eq run g) (w : Watch α n) :
    (g.resume w).1 = (run.resume w.journal).1.mapError .halted ∧
      (g.resume w).2.journal = (run.resume w.journal).2 := by
  rcases h w with ⟨halt, w', hrun, hg⟩ | ⟨b, c, w', hrun, hg, rfl⟩
  · rw [hrun, hg]
    exact ⟨rfl, rfl⟩
  · rw [hrun, hg]
    exact ⟨rfl, rfl⟩

theorem resume_halted {R : β → γ → Prop} {run : Run α n β} {g : Guarded α n γ} {halt : Halt α}
    {w w' : Watch α n} (h : Follows R run g) (hg : g.resume w = (.error (.halted halt), w')) :
    run.resume w.journal = (.error halt, w'.journal) := by
  rcases h w with ⟨halt', i, hrun, hguarded⟩ | ⟨b, c, i, -, hguarded, -⟩
  · rw [hg] at hguarded
    cases hguarded
    exact hrun
  · rw [hg] at hguarded
    cases hguarded

end Follows

/-! ### Checks that pass -/

theorem sized_toArray {l : ℕ} (v : Vector β l) : (sized l v.toArray : Guarded α n _) = pure v :=
  dif_pos v.size_toArray

theorem store_eq {out source : Array β} (h : out.size = source.size) :
    (store out source : Guarded α n _) = pure source := if_pos h

theorem read_eq {a : Array β} {i : ℕ} {b : β} (h : a[i]? = some b) :
    (read a i : Guarded α n β) = pure b := by
  rw [read, h]
  rfl

theorem index_val {l : ℕ} (i : Fin l) : (index l i.val : Guarded α n _) = pure i := dif_pos i.isLt

theorem ofFnM_eq {f : Fin k → Guarded α n β} {v : Vector β k} (h : ∀ c, f c = pure v[c]) :
    Vector.ofFnM f = pure v := by
  rw [funext h, Vector.ofFnM_pure]
  exact congrArg pure (ext_getElem fun c => getElem_ofFn _ c)

end Guarded

namespace Table

theorem shaped_ofMat (a : Mat α m k) : ((ofMat a).shaped m k : Guarded α n _) = pure a :=
  dif_pos ⟨rfl, rfl⟩

theorem assign_ofMat (a b : Mat α m k) :
    ((ofMat a).assign (.ofMat b) : Guarded α n _) = pure (.ofMat b) := by
  show ((ofMat a).shaped m k >>= fun c : Mat α m k => pure (ofMat (c.assign b)) : Guarded α n _) = _
  rw [shaped_ofMat, pure_bind, Mat.assign_eq]

end Table

end LeastSquares
