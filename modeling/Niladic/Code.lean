import Niladic.Number
import Niladic.Operator

/-!
Code: the flat tables of functions, blocks, values and globals that a program is compiled to. The
entries of one table point to those of another by handles, which are indices. Every look-up is
partial: `none` means that a handle points outside its table.
-/

namespace Niladic

structure FuncId where
  index : Nat
deriving DecidableEq, Hashable, Repr

structure BlockId where
  index : Nat
deriving DecidableEq, Hashable, Repr

structure ValueId where
  index : Nat
deriving DecidableEq, Hashable, Repr

structure GlobalId where
  index : Nat
deriving DecidableEq, Hashable, Repr

def FuncId.text (f : FuncId) : String := "FuncRef(" ++ toString f.index ++ ")"

def ValueId.text (v : ValueId) : String := "ValueRef(" ++ toString v.index ++ ")"

def GlobalId.text (g : GlobalId) : String := "GlobalRef(" ++ toString g.index ++ ")"

inductive Returns where
  | void
  | number
deriving DecidableEq, Repr

inductive Operation where
  | const (value : Float)
  | address (global : GlobalId)
  | arith (op : Operator) (left right : ValueId)
  | slot
  | load (pointer : ValueId)
  | store (value pointer : ValueId)
  | call (callee : FuncId)
  | ret (value : Option ValueId)
deriving DecidableEq, Repr

namespace Operation

def isTerminator : Operation → Bool
  | .ret _ => true
  | _ => false

def isInstruction : Operation → Bool
  | .const _ | .address _ => false
  | _ => true

def isPointer : Operation → Bool
  | .address _ | .slot => true
  | _ => false

def text : Operation → String
  | .const value => "Const(" ++ Number.literal value ++ ")"
  | .address global => "GlobalAddr(" ++ global.text ++ ")"
  | .arith op left right =>
      "Arith \x7b op: " ++ op.title ++ ", lhs: " ++ left.text ++ ", rhs: " ++ right.text ++ " \x7d"
  | .slot => "Alloca"
  | .load pointer => "Load \x7b ptr: " ++ pointer.text ++ " \x7d"
  | .store value pointer =>
      "Store \x7b value: " ++ value.text ++ ", ptr: " ++ pointer.text ++ " \x7d"
  | .call callee => "Call \x7b callee: " ++ callee.text ++ " \x7d"
  | .ret none => "Ret \x7b value: None \x7d"
  | .ret (some value) => "Ret \x7b value: Some(" ++ value.text ++ ") \x7d"

end Operation

structure Func where
  name : String
  returns : Returns
  blocks : Array BlockId
deriving DecidableEq, Repr

structure Block where
  name : String
  owner : FuncId
  body : Array ValueId
deriving DecidableEq, Repr

structure Value where
  name : String
  operation : Operation
  block : Option BlockId
deriving DecidableEq, Repr

structure Global where
  name : String
  initial : Float
  external : Bool
  address : ValueId
deriving DecidableEq, Repr

structure Code where
  name : String
  functions : Array Func := #[]
  blocks : Array Block := #[]
  values : Array Value := #[]
  globals : Array Global := #[]
deriving DecidableEq, Repr

namespace Code

def func? (code : Code) (f : FuncId) : Option Func := code.functions[f.index]?

def block? (code : Code) (b : BlockId) : Option Block := code.blocks[b.index]?

def value? (code : Code) (v : ValueId) : Option Value := code.values[v.index]?

def global? (code : Code) (g : GlobalId) : Option Global := code.globals[g.index]?

def operation? (code : Code) (v : ValueId) : Option Operation := (code.value? v).map Value.operation

def findFunction? (code : Code) (name : String) : Option FuncId :=
  (code.functions.findIdx? (·.name == name)).map FuncId.mk

def findGlobal? (code : Code) (name : String) : Option GlobalId :=
  (code.globals.findIdx? (·.name == name)).map GlobalId.mk

def entryBlock? (code : Code) (f : FuncId) : Option (Option BlockId) :=
  (code.func? f).map fun function => function.blocks[0]?

def isNumeric? (code : Code) (v : ValueId) : Option Bool :=
  match code.operation? v with
  | none => none
  | some (.const _) | some (.arith ..) | some (.load _) => some true
  | some (.call callee) => (code.func? callee).map (·.returns == .number)
  | some _ => some false

def owner? (code : Code) (v : ValueId) : Option (Option FuncId) :=
  match code.value? v with
  | none => none
  | some value =>
      match value.block with
      | none => some none
      | some b => (code.block? b).map fun block => some block.owner

def isEmpty (code : Code) : Bool := code.functions.isEmpty && code.globals.isEmpty

end Code

end Niladic
