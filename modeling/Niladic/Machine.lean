import Niladic.Machine.Step

namespace Niladic

structure Memory where
  cells : Array Float
  executed : Nat := 0

structure Machine where
  code : Code
  limit : Nat
  memory : Memory

namespace Machine

/-- Runs a stack to its end. It ends because every step makes the stack weigh less. -/
def execute (code : Code) (limit : Nat) (stack : Stack) : Action (Logged Memory) (Option Float) :=
  fun s =>
    let counted : Logged Memory := { s with state.executed := s.state.executed + 1 }
    match h : step code limit s.state.cells stack with
    | .unfetched stop => .error stop s
    | .failed stop => .error stop counted
    | .finished result => .ok result counted
    | .moved stack' cells entered =>
        let log :=
          match entered with
          | some name => s.log.push (.entering name)
          | none => s.log
        execute code limit stack' ⟨log, cells, s.state.executed + 1⟩
termination_by stack.weight code limit
decreasing_by exact weight_step_lt h

def callFunction (code : Code) (limit : Nat) (f : FuncId) :
    Action (Logged Memory) (Option Float) := do
  match enter code f none with
  | .ok (frame, name) =>
      Logged.emit (.entering name)
      execute code limit (Stack.single frame)
  | .error stop => throw stop

variable {σ : Type}

def boot (code : Code) (limit : Nat) : Action (Logged σ) Machine := do
  Logged.emit (.machineReady code.name)
  return ⟨code, limit, { cells := code.globals.map Global.initial }⟩

def withMemory {α : Type} (x : Action (Logged Memory) α) : Action (Logged Machine) α :=
  Logged.focus ⟨Machine.memory, fun memory machine => { machine with memory }⟩ x

def trapped {α : Type} (t : Trap) : Action (Logged σ) α := Action.fail (.backend (.trapped t))

def run (entry : String) : Action (Logged Machine) Float := do
  let machine := (← get).state
  match machine.code.findFunction? entry with
  | none => Logged.reject (.entryNotFound entry) (.backend (.trapped (.noEntry entry)))
  | some f =>
      match (← Action.resolve (machine.code.func? f)).returns with
      | .void => trapped (.voidEntry entry)
      | .number =>
          let result ← withMemory (callFunction machine.code machine.limit f)
          Logged.emit (.executed (← get).state.memory.executed entry result)
          match result with
          | some x => return x
          | none => trapped (.noResult entry)

def globalValue? (machine : Machine) (name : String) : Option Float := do
  let g ← machine.code.findGlobal? name
  machine.memory.cells[g.index]?

end Machine

def Code.run {σ : Type} (code : Code) (limit : Nat) (entry : String) : Action (Logged σ) Float := do
  let machine ← Machine.boot code limit
  Logged.borrow machine (Machine.run entry)

end Niladic
