import Niladic.Log

namespace Niladic

inductive Stop where
  | error (e : Error)
  | badHandle
deriving DecidableEq, Repr

abbrev Action (σ : Type) := EStateM Stop σ

structure Part (σ τ : Type) where
  get : σ → τ
  put : τ → σ → σ

def Part.whole {σ : Type} : Part σ σ := ⟨id, fun t _ => t⟩

namespace Action

variable {σ τ α : Type}

def fail (e : Error) : Action σ α := throw (.error e)

def resolve : Option α → Action σ α
  | some a => pure a
  | none => throw .badHandle

def attempt (x : Action σ α) : Action σ (Except Error α) := fun s =>
  match x s with
  | .ok a s' => .ok (.ok a) s'
  | .error (.error e) s' => .ok (.error e) s'
  | .error .badHandle s' => .error .badHandle s'

def ofExcept : Except Error α → Action σ α
  | .ok a => pure a
  | .error e => fail e

def focus (p : Part σ τ) (x : Action τ α) : Action σ α := fun s =>
  match x (p.get s) with
  | .ok a t => .ok a (p.put t s)
  | .error stop t => .error stop (p.put t s)

end Action

structure Logged (σ : Type) where
  log : Log
  state : σ

namespace Logged

variable {σ τ α : Type}

def emit (e : Event) : Action (Logged σ) Unit :=
  modify fun s => { s with log := s.log.push e }

theorem emit_apply (e : Event) (s : Logged σ) :
    emit e s = .ok () { s with log := s.log.push e } := rfl

def reject (event : Event) (e : Error) : Action (Logged σ) α := do
  emit event
  Action.fail e

theorem reject_apply (event : Event) (e : Error) (s : Logged σ) :
    (reject event e : Action (Logged σ) α) s = .error (.error e) { s with log := s.log.push event } := rfl

def focus (p : Part σ τ) (x : Action (Logged τ) α) : Action (Logged σ) α :=
  Action.focus ⟨fun s => ⟨s.log, p.get s.state⟩, fun t s => ⟨t.log, p.put t.state s.state⟩⟩ x

def quietly (x : Action σ α) : Action (Logged σ) α :=
  Action.focus ⟨Logged.state, fun t s => { s with state := t }⟩ x

def borrow (start : τ) (x : Action (Logged τ) α) : Action (Logged σ) α := fun s =>
  match x ⟨s.log, start⟩ with
  | .ok a t => .ok a { s with log := t.log }
  | .error stop t => .error stop { s with log := t.log }

end Logged

end Niladic
