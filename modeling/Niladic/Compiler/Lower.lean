import Niladic.Compiler

namespace Niladic.Compiler

def globalNamed (name : String) : Compile GlobalId :=
  Registry.findOrCreate globalPart name do
    let g ← drafting (Draft.global name)
    count Statistics.addGlobal
    return g

def expectOperand (op : Operator) : Lowered → Compile ValueId
  | .value v => return v
  | other => Logged.reject (.operandKind op other.kind) (.backend (.operandKind op other.kind))

def expectAssigned (name : String) : Lowered → Compile ValueId
  | .value v => return v
  | other =>
      Logged.reject (.assignedKind name other.kind) (.backend (.assignedKind name other.kind))

def anchorItem (anchor : ValueId) (item : Tree) (lowered : Lowered) : Compile Unit :=
  match item.isNumeric, lowered with
  | true, .value v => do
      drafting (Draft.store v anchor)
      count Statistics.addAnchor
  | _, _ => return ()

def lowerCall (name : String) : Compile Lowered := do
  match (← code).findFunction? name with
  | none => Logged.reject (.calleeNotFound name) (.notFound .function name)
  | some f =>
      let v ← drafting (Draft.call f)
      counting (Statistics.noteCall name)
      return .call v

def declareProcedure (name : String) : Compile (FuncId × BlockId) := do
  Logged.emit (.definingProcedure name)
  let f ← Registry.create functionPart name (drafting (Draft.function name .void))
  let b ← Scopes.create blockPart name "entry" (drafting (Draft.block "entry" f))
  return (f, b)

def isBody : Tree → Bool
  | .body _ => true
  | _ => false

def expectBody (procedure : String) (inner : Tree) : Compile Unit :=
  if isBody inner then return ()
  else
    Logged.reject (.bodyKind procedure inner.kind) (.structural (.bodyKind procedure inner.kind))

mutual

def lower (t : Tree) : Compile Lowered := do
  count (·.addNode t.kind)
  Logged.emit (.lowering t.kind)
  match t with
  | .number x => return .value (← drafting (Draft.const x))
  | .binary op left right =>
      let x ← expectOperand op (← lower left)
      let y ← expectOperand op (← lower right)
      return .value (← drafting (Draft.arith op x y))
  | .assign name value =>
      let g ← globalNamed name
      let x ← expectAssigned name (← lower value)
      let pointer ← drafting (Draft.pointer g)
      drafting (Draft.store x pointer)
      return .global g
  | .body items =>
      let anchor ← drafting (Draft.slot "anchor")
      discard (lowerItems anchor none items)
      return .void
  | .procedure name inner =>
      let (f, b) ← declareProcedure name
      within b do
        expectBody name inner
        discard (lower inner)
        drafting Draft.retVoid
      count Statistics.addProcedure
      return .function f
  | .call name => lowerCall name
  | .program _ => Logged.reject (.unsupported .program) (.unsupported .program)

def lowerItems (anchor : ValueId) (last : Option Lowered) :
    List Tree → Compile (Option Lowered)
  | [] => return last
  | item :: rest => do
      let lowered ← lower item
      anchorItem anchor item lowered
      lowerItems anchor (some lowered) rest

end

end Niladic.Compiler
