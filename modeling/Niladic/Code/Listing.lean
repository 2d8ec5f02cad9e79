import Niladic.Code

namespace Niladic

def Returns.typeName : Returns → String
  | .void => "void"
  | .number => "double"

namespace Code

def operandText? (code : Code) (v : ValueId) : Option String :=
  match code.value? v with
  | none => none
  | some value =>
      match value.operation with
      | .const x => some (Number.literal x)
      | .address g => (code.global? g).map fun global => "@" ++ global.name
      | _ => some ("%" ++ if value.name.isEmpty then toString v.index else value.name)

def instructionLines? (code : Code) (v : ValueId) : Option (List String) := do
  let result ← code.operandText? v
  match ← code.operation? v with
  | .arith op left right =>
      let left ← code.operandText? left
      let right ← code.operandText? right
      return ["  " ++ result ++ " = " ++ op.mnemonic ++ " double " ++ left ++ ", " ++ right]
  | .slot => return ["  " ++ result ++ " = alloca double"]
  | .load pointer => return ["  " ++ result ++ " = load double, ptr " ++ (← code.operandText? pointer)]
  | .store value pointer =>
      let value ← code.operandText? value
      return ["  store double " ++ value ++ ", ptr " ++ (← code.operandText? pointer)]
  | .call callee =>
      let function ← code.func? callee
      let target := "call " ++ function.returns.typeName ++ " @" ++ function.name ++ "()"
      match function.returns with
      | .void => return ["  " ++ target]
      | .number => return ["  " ++ result ++ " = " ++ target]
  | .ret (some value) => return ["  ret double " ++ (← code.operandText? value)]
  | .ret none => return ["  ret void"]
  | .const _ | .address _ => return []

def blockLines? (code : Code) (b : BlockId) : Option (List String) := do
  let block ← code.block? b
  let lines ← block.body.toList.mapM code.instructionLines?
  return (block.name ++ ":") :: lines.flatten

def functionLines? (code : Code) (function : Func) : Option (List String) :=
  let signature := function.returns.typeName ++ " @" ++ function.name ++ "()"
  match function.blocks.toList with
  | [] => some ["", "declare " ++ signature]
  | blocks => do
      let lines ← blocks.mapM code.blockLines?
      return "" :: ("define " ++ signature ++ " \x7b") :: (lines.flatten ++ ["\x7d"])

def globalLine (global : Global) : String :=
  "@" ++ global.name ++ " = " ++ (if global.external then "global" else "internal global") ++
    " double " ++ Number.literal global.initial

def globalLines (code : Code) : List String :=
  match code.globals.toList with
  | [] => []
  | globals => "" :: globals.map globalLine

def lines? (code : Code) : Option (List String) := do
  let functions ← code.functions.toList.mapM code.functionLines?
  return ("; ModuleID = '" ++ code.name ++ "'") :: (code.globalLines ++ functions.flatten)

def listing? (code : Code) : Option String :=
  code.lines?.map fun lines => String.join (lines.map (· ++ "\n"))

end Code

end Niladic
