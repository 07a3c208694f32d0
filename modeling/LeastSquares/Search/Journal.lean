import LeastSquares.Error
import LeastSquares.Termination

/-!
What a search leaves behind beside its result: every point at which it called the residual function
or the Jacobian, how often it did so with success, and the messages for its log. The journal is kept
also when the search fails.
-/

namespace LeastSquares

inductive Purpose where
  | start
  | trial
  /-- A difference step. -/
  | probe
  deriving DecidableEq, Repr

/-- A call of the residual function or its Jacobian, at the full vector it was given. -/
inductive Call (α : Type) (n : Nat) where
  | residuals (purpose : Purpose) (x : Vector α n)
  | jacobian (x : Vector α n)

inductive LogEntry (α : Type) where
  | started (parameters free residuals : Nat) (mode : JacobianMode)
  | trial (norm ratio part radius damping : α)
  | accepted (iteration : Nat) (chiSquare cosine : α) (evaluations : Nat)
  | rankDeficient (rank free : Nat)
  | finished (iterations evaluations : Nat) (status : Status) (startChiSquare chiSquare : α)

structure Journal (α : Type) (n : Nat) where
  calls : Array (Call α n)
  /-- Evaluations of the residuals that did not fail. -/
  evaluations : Nat
  jacobians : Nat
  log : Array (LogEntry α)

def Journal.empty {α : Type} {n : Nat} : Journal α n := ⟨#[], 0, 0, #[]⟩

/-- Why a search ends without a solution: an error, or the bound on trial steps in one iteration. -/
inductive Halt (α : Type) where
  | failed (cause : FitError α)
  | outOfTrials

/-- A computation that keeps a journal and may halt. -/
abbrev Run (α : Type) (n : Nat) := ExceptT (Halt α) (StateM (Journal α n))

namespace Run

variable {α β : Type} {n : Nat}

def fail (cause : FitError α) : Run α n β := throw (.failed cause)

def require (ok : Bool) (cause : FitError α) : Run α n Unit := if ok then pure () else fail cause

def ofExcept : Except (FitError α) β → Run α n β
  | .ok b => pure b
  | .error cause => fail cause

def record (call : Call α n) : Run α n Unit :=
  modify fun journal => { journal with calls := journal.calls.push call }

def countEvaluation : Run α n Unit :=
  modify fun journal => { journal with evaluations := journal.evaluations + 1 }

def countJacobian : Run α n Unit :=
  modify fun journal => { journal with jacobians := journal.jacobians + 1 }

def log (entry : LogEntry α) : Run α n Unit :=
  modify fun journal => { journal with log := journal.log.push entry }

def evaluations : Run α n Nat := return (← get).evaluations

def jacobians : Run α n Nat := return (← get).jacobians

def resume (run : Run α n β) (journal : Journal α n) : Except (Halt α) β × Journal α n :=
  (ExceptT.run run).run journal

def outcome (run : Run α n β) : Except (Halt α) β × Journal α n := run.resume .empty

end Run

end LeastSquares
