import Niladic.Code.Listing
import Niladic.Compiler
import Niladic.Tree.Outline

namespace Niladic.Compiler

def outline : Compile (List String) := do
  match (← get).state.root with
  | some root => return root.outline 0
  | none => Logged.reject .noRoot (.structural .noRoot)

def logLines : List String → Compile Unit
  | [] => return ()
  | line :: rest => do
      Logged.emit (.outlineLine line)
      logLines rest

def logOutline : Compile Unit := do logLines (← outline)

def logNode (t : Tree) (depth : Nat) : Compile Unit := logLines (t.outline depth)

def listing : Compile String := do Action.resolve (← code).listing?

def printedListing : Compile String := do
  if (← code).isEmpty then Logged.emit .emptyCode
  listing

def noteExport (path : String) : Except FileFault Unit → Compile Unit
  | .ok () => Logged.emit (.exported path)
  | .error fault => Logged.reject (.exportFailed path (.file fault)) (.file fault)

end Niladic.Compiler
