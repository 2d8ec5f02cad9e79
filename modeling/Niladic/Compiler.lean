import Niladic.Code.Check
import Niladic.Code.Draft
import Niladic.Registry.Scopes

namespace Niladic

structure Compiler where
  root : Option Tree
  draft : Draft
  config : Config := {}
  functions : Registry FuncId := ⟨.function, ∅⟩
  blocks : Scopes BlockId := {}
  globals : Registry GlobalId := ⟨.global, ∅⟩
  statistics : Statistics := {}
  generated : Bool := false

abbrev Compile := Action (Logged Compiler)

def Statistics.noteCall (name : String) : Action (Logged Statistics) Unit := do
  modify fun s => { s with state := s.state.addCall }
  Logged.emit (.callRecorded name)

namespace Compiler

def ofConfig (config : Config) (root : Option Tree) : Compiler :=
  { root, config, draft := Draft.ofConfig config }

def functionPart : Part Compiler (Registry FuncId) :=
  ⟨Compiler.functions, fun functions c => { c with functions }⟩

def globalPart : Part Compiler (Registry GlobalId) :=
  ⟨Compiler.globals, fun globals c => { c with globals }⟩

def blockPart : Part Compiler (Scopes BlockId) :=
  ⟨Compiler.blocks, fun blocks c => { c with blocks }⟩

variable {α : Type}

/-- The draft leaves the state while it is worked on, so that it can be changed in place. -/
def drafting (x : Action Draft α) : Compile α
  | ⟨log, root, draft, config, functions, blocks, globals, statistics, generated⟩ =>
      match x draft with
      | .ok a draft =>
          .ok a ⟨log, root, draft, config, functions, blocks, globals, statistics, generated⟩
      | .error stop draft =>
          .error stop ⟨log, root, draft, config, functions, blocks, globals, statistics, generated⟩

theorem drafting_apply (x : Action Draft α) (s : Logged Compiler) :
    drafting x s = match x s.state.draft with
      | .ok a d => .ok a { s with state.draft := d }
      | .error stop d => .error stop { s with state.draft := d } := rfl

def counting (x : Action (Logged Statistics) α) : Compile α :=
  Logged.focus ⟨Compiler.statistics, fun statistics c => { c with statistics }⟩ x

def count (f : Statistics → Statistics) : Compile Unit :=
  modify fun s => { s with state.statistics := f s.state.statistics }

def code : Compile Code := do return (← get).state.draft.code

def cursor : Compile (Option BlockId) := do return (← get).state.draft.cursor

def within (b : BlockId) (x : Compile α) : Compile α := do
  let saved ← cursor
  drafting (Draft.position b)
  let result ← Action.attempt x
  drafting (Draft.restore saved)
  Action.ofExcept result

end Compiler

end Niladic
