import Std.Data.TreeMap
import Niladic.Action
import Niladic.Config

namespace Niladic

abbrev Draft.useOrder : FuncId × String → FuncId × String → Ordering :=
  compareLex (compareOn fun use => use.1.index) (compareOn Prod.snd)

instance : Std.LawfulEqCmp Draft.useOrder where
  eq_of_compare := by
    rintro ⟨⟨f⟩, name⟩ ⟨⟨g⟩, other⟩ h
    obtain ⟨hfunction, hname⟩ := Ordering.then_eq_eq.mp h
    have hindex : f = g := Std.LawfulEqOrd.eq_of_compare hfunction
    have hnames : name = other := Std.LawfulEqOrd.eq_of_compare hname
    rw [hindex, hnames]

structure Draft where
  code : Code
  cursor : Option BlockId := none
  depth : Nat := ({} : Config).depth
  uses : Std.TreeMap (FuncId × String) Nat Draft.useOrder := ∅

namespace Draft

def ofConfig (config : Config) : Draft := { code := { name := config.name }, depth := config.depth }

def refuse {α : Type} (fault : BackendFault) : Action Draft α := Action.fail (.backend fault)

def position (b : BlockId) : Action Draft Unit := modify fun d => { d with cursor := some b }

def clear : Action Draft Unit := modify fun d => { d with cursor := none }

def restore (cursor : Option BlockId) : Action Draft Unit := modify fun d => { d with cursor }

def pushValue (value : Value) : Action Draft ValueId := do
  let v : ValueId := ⟨(← get).code.values.size⟩
  modify fun d => { d with code := { d.code with values := d.code.values.push value } }
  return v

def pushInstruction (b : BlockId) (v : ValueId) : Action Draft Unit := do
  if b.index < (← get).code.blocks.size then
    modify fun d => { d with code := { d.code with
      blocks := d.code.blocks.modify b.index fun block => { block with body := block.body.push v } } }
  else throw .badHandle

def uniqueName (b : BlockId) (name : String) : Action Draft String := do
  if name.isEmpty then return ""
  else
    let block ← Action.resolve ((← get).code.block? b)
    let count := (← get).uses.getD (block.owner, name) 0
    modify fun d => { d with uses := d.uses.insert (block.owner, name) (count + 1) }
    return if count = 0 then name else name ++ toString count

def here : Action Draft BlockId := do
  match (← get).cursor with
  | some b => return b
  | none => refuse .noPosition

def append (name : String) (operation : Operation) : Action Draft ValueId := do
  let b ← here
  let name ← uniqueName b name
  let v ← pushValue ⟨name, operation, some b⟩
  pushInstruction b v
  return v

def expectNumeric (user : String) (v : ValueId) : Action Draft Unit := do
  let code := (← get).code
  if ← Action.resolve (code.isNumeric? v) then return ()
  else refuse (.notNumeric user (← Action.resolve (code.operation? v)))

def expectPointer (v : ValueId) : Action Draft Unit := do
  let operation ← Action.resolve ((← get).code.operation? v)
  if operation.isPointer then return () else refuse (.notPointer operation)

def returns : Action Draft Returns := do
  let b ← here
  let code := (← get).code
  let block ← Action.resolve (code.block? b)
  return (← Action.resolve (code.func? block.owner)).returns

def function (name : String) (returns : Returns) : Action Draft FuncId := do
  let code := (← get).code
  if (code.findFunction? name).isSome then Action.fail (.duplicate .function name)
  else if (code.findGlobal? name).isSome then Action.fail (.duplicate .global name)
  else
    modify fun d => { d with code := { d.code with
      functions := d.code.functions.push ⟨name, returns, #[]⟩ } }
    return ⟨code.functions.size⟩

def block (name : String) (f : FuncId) : Action Draft BlockId := do
  let b : BlockId := ⟨(← get).code.blocks.size⟩
  if f.index < (← get).code.functions.size then
    modify fun d => { d with code := { d.code with
      blocks := d.code.blocks.push ⟨name, f, #[]⟩
      functions := d.code.functions.modify f.index fun function =>
        { function with blocks := function.blocks.push b } } }
    return b
  else refuse (.unknownFunction f)

def global (name : String) : Action Draft GlobalId := do
  let code := (← get).code
  if (code.findGlobal? name).isSome then Action.fail (.duplicate .global name)
  else if (code.findFunction? name).isSome then Action.fail (.duplicate .function name)
  else
    let g : GlobalId := ⟨code.globals.size⟩
    let address ← pushValue ⟨name, .address g, none⟩
    modify fun d => { d with code := { d.code with
      globals := d.code.globals.push ⟨name, 0.0, true, address⟩ } }
    return g

def pointer (g : GlobalId) : Action Draft ValueId := do
  return (← Action.resolve ((← get).code.global? g)).address

def const (x : Float) : Action Draft ValueId := pushValue ⟨"", .const x, none⟩

def arith (op : Operator) (left right : ValueId) : Action Draft ValueId := do
  expectNumeric op.mnemonic left
  expectNumeric op.mnemonic right
  append op.resultName (.arith op left right)

def slot (name : String) : Action Draft ValueId := append name .slot

def store (value pointer : ValueId) : Action Draft Unit := do
  expectNumeric "store" value
  expectPointer pointer
  discard (append "" (.store value pointer))

def load (pointer : ValueId) (name : String) : Action Draft ValueId := do
  expectPointer pointer
  append name (.load pointer)

def call (f : FuncId) : Action Draft ValueId := do
  match (← Action.resolve ((← get).code.func? f)).returns with
  | .number => append "calltmp" (.call f)
  | .void => append "" (.call f)

def ret (value : ValueId) : Action Draft Unit := do
  match ← returns with
  | .void => refuse .valueFromVoid
  | .number =>
      expectNumeric "ret" value
      discard (append "" (.ret (some value)))

def retVoid : Action Draft Unit := do
  match ← returns with
  | .number => refuse .voidFromNumber
  | .void => discard (append "" (.ret none))

end Draft

end Niladic
