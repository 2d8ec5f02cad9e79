import Niladic.CommandLine.Options
import Niladic.Compiler.Generate
import Niladic.Compiler.Output
import Niladic.Folder
import Niladic.Source

namespace Niladic

structure Host (m : Type → Type) where
  readFile : String → m (Except FileFault ByteArray)
  readInput : m ByteArray
  writeFile : String → String → m (Except FileFault Unit)

def Folder.host (input : ByteArray) : Host (StateM Folder) where
  readFile path := do return (← get).read path
  readInput := return input
  writeFile path text := do
    match (← get).write path text with
    | .ok folder =>
        set folder
        return .ok ()
    | .error fault => return .error fault

structure Report where
  result : Except Stop Int
  output : String
  log : Log

def Report.ofResult (output : String) : EStateM.Result Stop (Logged Compiler) Int → Report
  | .ok x s => ⟨.ok x, output, s.log⟩
  | .error stop s => ⟨.error stop, output, s.log⟩

namespace CommandLine

def start (options : Options) (source : String) : Action (Logged Unit) Compiler := do
  let tree ← Source.parse source
  match options.engine with
  | .interpreter => return Compiler.ofConfig {} (some tree)
  | .native => Logged.reject .unavailable (.backend .unavailable)

def build (options : Options) : Compile String := do
  if options.dumpTree then Compiler.logOutline
  Compiler.generate
  if options.dumpCode then Compiler.printedListing else return ""

variable {m : Type → Type} [Monad m]

def emitAndRun (host : Host m) (options : Options) (output : String) (s : Logged Compiler) :
    m Report := do
  match options.emit with
  | none => return Report.ofResult output (Compiler.runProgram s)
  | some path =>
      match Compiler.listing s with
      | .error stop s => return ⟨.error stop, output, s.log⟩
      | .ok text s =>
          let written ← host.writeFile path text
          let finish : Compile Int := do
            Compiler.noteExport path written
            Compiler.runProgram
          return Report.ofResult output (finish s)

def runSource (host : Host m) (options : Options) (source : String) (log : Log) : m Report := do
  match start options source ⟨log, ()⟩ with
  | .error stop s => return ⟨.error stop, "", s.log⟩
  | .ok compiler s =>
      match build options ⟨s.log, compiler⟩ with
      | .error stop s => return ⟨.error stop, "", s.log⟩
      | .ok output s => emitAndRun host options output s

def readSource (host : Host m) (options : Options) : m (Except FileFault ByteArray × Log) := do
  match options.input with
  | some path => return (← host.readFile path, #[.reading path])
  | none => return (.ok (← host.readInput), #[])

def run (host : Host m) (options : Options) : m Report := do
  let (bytes, log) ← readSource host options
  match bytes.bind decodeText with
  | .ok source => runSource host options source log
  | .error fault => return ⟨.error (.error (.file fault)), "", log⟩

end CommandLine

end Niladic
