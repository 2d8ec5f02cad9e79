import Niladic.Action

/-!
The check of code before it runs: every block ends in its one terminator, and every operand is of
the right sort and from the same function. The order of instructions is not checked.
-/

namespace Niladic

inductive Finding where
  | flaw (function : String) (flaw : Flaw)
  | badHandle
deriving DecidableEq, Repr

namespace Code

abbrev Check := Except Finding

def checked {α : Type} : Option α → Check α
  | some a => .ok a
  | none => .error .badHandle

def hasTerminator (code : Code) : List ValueId → Check Bool
  | [] => .ok false
  | v :: rest => do
      if (← checked (code.operation? v)).isTerminator then .ok true else code.hasTerminator rest

def checkLocal (code : Code) (f : FuncId) (function : Func) (v : ValueId) : Check Unit := do
  match ← checked (code.owner? v) with
  | none => .ok ()
  | some owner =>
      if owner = f then .ok ()
      else
        let other ← checked (code.func? owner)
        .error (.flaw function.name (.foreignOperand v other.name))

def checkNumeric (code : Code) (f : FuncId) (function : Func) (v : ValueId) : Check Unit := do
  code.checkLocal f function v
  if ← checked (code.isNumeric? v) then .ok ()
  else .error (.flaw function.name (.notNumeric v))

def checkPointer (code : Code) (f : FuncId) (function : Func) (v : ValueId) : Check Unit := do
  code.checkLocal f function v
  if (← checked (code.operation? v)).isPointer then .ok ()
  else .error (.flaw function.name (.notPointer v))

def checkInstruction (code : Code) (f : FuncId) (function : Func) (v : ValueId) : Check Unit := do
  match ← checked (code.operation? v) with
  | .const _ | .address _ => .error (.flaw function.name (.notInstruction v))
  | .arith _ left right =>
      code.checkNumeric f function left
      code.checkNumeric f function right
  | .load pointer => code.checkPointer f function pointer
  | .store value pointer =>
      code.checkNumeric f function value
      code.checkPointer f function pointer
  | .ret value =>
      match function.returns, value with
      | .number, some v => code.checkNumeric f function v
      | .void, none => .ok ()
      | .number, none => .error (.flaw function.name .missingValue)
      | .void, some _ => .error (.flaw function.name .unexpectedValue)
  | .slot | .call _ => .ok ()

def checkBlock (code : Code) (f : FuncId) (function : Func) (b : BlockId) : Check Unit := do
  let block ← checked (code.block? b)
  match block.body.toList.getLast? with
  | none => .error (.flaw function.name (.emptyBlock block.name))
  | some last =>
      if !(← checked (code.operation? last)).isTerminator then
        .error (.flaw function.name (.unterminated block.name))
      else if ← code.hasTerminator block.body.toList.dropLast then
        .error (.flaw function.name (.earlyTerminator block.name))
      else block.body.toList.forM (code.checkInstruction f function)

def checkFunction (code : Code) (f : FuncId) : Check Unit := do
  let function ← checked (code.func? f)
  function.blocks.toList.forM (code.checkBlock f function)

def check (code : Code) : Check Unit :=
  (List.range code.functions.size).forM fun i => code.checkFunction ⟨i⟩

def verify {σ : Type} (code : Code) : Action (Logged σ) Unit :=
  match code.check with
  | .ok () => pure ()
  | .error (.flaw function flaw) =>
      Logged.reject (.flawed function flaw) (.backend (.flawed function flaw))
  | .error .badHandle => throw .badHandle

end Code

end Niladic
