import Niladic.Compiler.Lower
import Niladic.Machine

namespace Niladic.Compiler

def enterEntry : Compile ValueId := do
  let name := (← get).state.config.entry
  let f ← Registry.findOrCreate functionPart name (drafting (Draft.function name .number))
  let b ← Scopes.findOrCreate blockPart name "entry" (drafting (Draft.block "entry" f))
  drafting (Draft.position b)
  drafting (Draft.slot "anchor")

def lowerProgramItems (items : List Tree) : Compile Unit := do
  let anchor ← enterEntry
  let last ← lowerItems anchor none items
  let result := (← get).state.config.result
  let g ← globalNamed result
  let pointer ← drafting (Draft.pointer g)
  let value ← drafting (Draft.load pointer (result ++ ".load"))
  if last.all Lowered.isVoid then Action.fail (.structural .voidResult)
  else
    drafting (Draft.ret value)
    (← code).verify

def lowerProgram : Tree → Compile Unit
  | .program [] => Action.fail (.structural .noItems)
  | .program items => lowerProgramItems items
  | root => Action.fail (.structural (.rootKind root.kind))

def setRoot (root : Option Tree) : Compile Unit := modify fun s => { s with state.root := root }

def generateFrom (root : Tree) : Compile Unit := do
  setRoot none
  let result ← Action.attempt (lowerProgram root)
  setRoot (some root)
  match result with
  | .ok () =>
      modify fun s => { s with state.generated := true }
      Logged.emit (.summary (← get).state.statistics)
  | .error e => Logged.reject (.generationFailed e) e

def generate : Compile Unit := do
  let c := (← get).state
  Logged.emit (.generating c.config.name)
  if c.generated then Action.fail (.structural .alreadyGenerated)
  else
    match c.root with
    | none => Logged.reject .noRoot (.structural .noRoot)
    | some root => generateFrom root

def runProgram : Compile Int := do
  let c := (← get).state
  if c.generated then
    let entry := c.config.entry
    Logged.emit (.running entry)
    match ← Action.attempt (c.draft.code.run c.draft.depth entry) with
    | .ok x =>
        Logged.emit (.ran entry x)
        return Number.toResult x
    | .error e => Logged.reject (.runFailed entry e) e
  else Logged.reject .nothingToRun (.structural .notGenerated)

end Niladic.Compiler
