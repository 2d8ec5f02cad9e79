import Niladic.Error
import Niladic.Statistics

namespace Niladic

inductive Level where
  | error
  | warn
  | info
  | debug
  | trace
deriving DecidableEq, Repr

namespace Level

def rank : Level → Nat
  | .error => 0
  | .warn => 1
  | .info => 2
  | .debug => 3
  | .trace => 4

def title : Level → String
  | .error => "ERROR"
  | .warn => "WARN"
  | .info => "INFO"
  | .debug => "DEBUG"
  | .trace => "TRACE"

def name : Level → String
  | .error => "error"
  | .warn => "warn"
  | .info => "info"
  | .debug => "debug"
  | .trace => "trace"

def ofName? (name : String) : Option Level :=
  [Level.error, .warn, .info, .debug, .trace].find? (·.name == name)

end Level

inductive Event where
  | tokenized (count : Nat)
  | parsed (items : Nat)
  | sourceRejected (e : SourceError)
  | duplicate (kind : SymbolKind) (name : String)
  | registered (kind : SymbolKind) (name : String)
  | notFound (kind : SymbolKind) (name : String)
  | callRecorded (name : String)
  | lowering (kind : Kind)
  | unsupported (what : Unsupported)
  | operandKind (op : Operator) (found : LoweredKind)
  | assignedKind (name : String) (found : LoweredKind)
  | definingProcedure (name : String)
  | bodyKind (procedure : String) (kind : Kind)
  | calleeNotFound (name : String)
  | generating (name : String)
  | noRoot
  | summary (statistics : Statistics)
  | generationFailed (error : Error)
  | outlineLine (line : String)
  | emptyCode
  | exportFailed (path : String) (error : Error)
  | exported (path : String)
  | nothingToRun
  | running (entry : String)
  | runFailed (entry : String) (error : Error)
  | ran (entry : String) (result : Float)
  | flawed (function : String) (flaw : Flaw)
  | machineReady (name : String)
  | entryNotFound (name : String)
  | entering (name : String)
  | executed (count : Nat) (entry : String) (result : Option Float)
  | reading (path : String)
  | unavailable
deriving DecidableEq, Repr

namespace Event

def level : Event → Level
  | .tokenized _ | .registered .. | .lowering _ | .entering _ => .trace
  | .parsed _ | .callRecorded _ | .definingProcedure _ | .summary _ | .machineReady _
  | .executed .. | .reading _ => .debug
  | .generating _ | .outlineLine _ | .exported _ | .running _ | .ran .. => .info
  | .emptyCode => .warn
  | .sourceRejected _ | .duplicate .. | .notFound .. | .unsupported _ | .operandKind ..
  | .assignedKind .. | .bodyKind .. | .calleeNotFound _ | .noRoot | .generationFailed _
  | .exportFailed .. | .nothingToRun | .runFailed .. | .flawed .. | .entryNotFound _
  | .unavailable => .error

private def resultText : Option Float → String
  | some x => "Some(" ++ Number.literal x ++ ")"
  | none => "None"

def message : Event → String
  | .tokenized count => "Tokenized " ++ toString count ++ " tokens"
  | .parsed items => "Parsed program with " ++ toString items ++ " top-level items"
  | .sourceRejected e => e.message
  | .duplicate kind name => duplicateMessage kind name
  | .registered kind name => "registered " ++ kind.title ++ " " ++ name
  | .notFound kind name => kind.title ++ " " ++ name ++ " not found."
  | .callRecorded name => "Call site recorded: " ++ name
  | .lowering kind => "Lowering " ++ kind.title
  | .unsupported what => unsupportedMessage what
  | .operandKind op found => "Operand of '" ++ op.symbol.toString ++ "' is a " ++ found.title
  | .assignedKind name found => "Assignment to " ++ name ++ " from a " ++ found.title
  | .definingProcedure name => "Defining procedure " ++ name
  | .bodyKind procedure kind => "Procedure " ++ procedure ++ " has a " ++ kind.title ++ " as body"
  | .calleeNotFound name => "Function " ++ name ++ " not found in module"
  | .generating name => "Generating code for module " ++ name
  | .noRoot => "No code provided. root node is empty"
  | .summary statistics => statistics.text
  | .generationFailed error => "Failed to generate code: " ++ error.message
  | .outlineLine line => line
  | .emptyCode => "Module is empty!"
  | .exportFailed path error => "Could not write program to " ++ path ++ ": " ++ error.message
  | .exported path => "Program written to " ++ path
  | .nothingToRun => "No generated program to run"
  | .running entry => "Running " ++ entry
  | .runFailed entry error => "Execution of " ++ entry ++ " failed: " ++ error.message
  | .ran entry result => entry ++ " returned " ++ Number.text result
  | .flawed function flaw =>
      "Verification of function " ++ function ++ " failed: " ++ flaw.text
  | .machineReady name => "Initializing interpreter for module " ++ name
  | .entryNotFound name => "Could not find function '" ++ name ++ "' in module"
  | .entering name => "Entering " ++ name
  | .executed count entry result =>
      "Executed " ++ toString count ++ " instructions, " ++ entry ++ " returned " ++ resultText result
  | .reading path => "Reading " ++ path
  | .unavailable => "LLVM backend requested but hebe was built without the `llvm` feature"

def text (e : Event) : String := e.level.title ++ " " ++ e.message

end Event

abbrev Log := Array Event

def Log.lines (log : Log) (level : Level) : List String :=
  (log.toList.filter fun e => decide (e.level.rank ≤ level.rank)).map Event.text

end Niladic
