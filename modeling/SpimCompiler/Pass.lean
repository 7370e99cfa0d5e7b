import SpimCompiler.Fault
import SpimCompiler.Trace

namespace SpimCompiler

variable {σ τ α : Type}

structure Run (σ : Type) where
  state : σ
  trace : Trace := #[]

abbrev Pass (σ : Type) := EStateM Fault (Run σ)

structure Outcome (α : Type) where
  result : Except Fault α
  trace : Trace

namespace Pass

def log (r : Record) : Pass σ Unit :=
  modify fun run => { run with trace := run.trace.push r }

def state : Pass σ σ := do return (← get).state

def update (f : σ → σ) : Pass σ Unit :=
  modify fun run => { run with state := f run.state }

def ofExcept : Except Fault α → Pass σ α
  | .ok a => pure a
  | .error e => throw e

def ofOption (fault : Fault) : Option α → Pass σ α
  | some a => pure a
  | none => throw fault

def inside (s : τ) (p : Pass τ α) : Pass σ (α × τ) := fun run =>
  match p ⟨s, run.trace⟩ with
  | .ok a r => .ok (a, r.state) { run with trace := r.trace }
  | .error e r => .error e { run with trace := r.trace }

@[simp]
theorem log_run (r : Record) (run : Run σ) :
    log r run = .ok () ⟨run.state, run.trace.push r⟩ := rfl

@[simp]
theorem state_run (run : Run σ) : state run = .ok run.state run := rfl

@[simp]
theorem update_run (f : σ → σ) (run : Run σ) :
    update f run = .ok () ⟨f run.state, run.trace⟩ := rfl

@[simp]
theorem ofExcept_ok_run (a : α) (run : Run σ) : ofExcept (.ok a) run = .ok a run := rfl

@[simp]
theorem ofExcept_error_run (e : Fault) (run : Run σ) :
    (ofExcept (.error e) : Pass σ α) run = .error e run := rfl

@[simp]
theorem ofOption_some_run (e : Fault) (a : α) (run : Run σ) :
    ofOption e (some a) run = .ok a run := rfl

@[simp]
theorem ofOption_none_run (e : Fault) (run : Run σ) :
    (ofOption e none : Pass σ α) run = .error e run := rfl

def outcome (p : Pass Unit α) : Outcome α :=
  match p ⟨(), #[]⟩ with
  | .ok a r => ⟨.ok a, r.trace⟩
  | .error e r => ⟨.error e, r.trace⟩

end Pass

end SpimCompiler
