import Niladic.Code
import Niladic.Token
import Niladic.Tree

namespace Niladic

inductive SymbolKind where
  | function
  | block
  | global
deriving DecidableEq, Repr

def SymbolKind.title : SymbolKind → String
  | .function => "Function"
  | .block => "Basic block"
  | .global => "Global variable"

inductive Lowered where
  | value (v : ValueId)
  | global (g : GlobalId)
  | function (f : FuncId)
  | call (v : ValueId)
  | void
deriving DecidableEq, Repr

inductive LoweredKind where
  | value
  | global
  | function
  | call
  | void
deriving DecidableEq, Repr

def LoweredKind.title : LoweredKind → String
  | .value => "value"
  | .global => "global"
  | .function => "function"
  | .call => "call"
  | .void => "void"

namespace Lowered

def kind : Lowered → LoweredKind
  | .value _ => .value
  | .global _ => .global
  | .function _ => .function
  | .call _ => .call
  | .void => .void

def isVoid : Lowered → Bool
  | .void => true
  | _ => false

def title (l : Lowered) : String := l.kind.title

def text : Lowered → String
  | .value v => "Value(" ++ v.text ++ ")"
  | .global g => "Global(" ++ g.text ++ ")"
  | .function f => "Function(" ++ f.text ++ ")"
  | .call v => "Call(" ++ v.text ++ ")"
  | .void => "Void"

end Lowered

inductive Expected where
  | procedureName
  | variableName
  | into
  | closing
  | expression
deriving DecidableEq, Repr

def Expected.text : Expected → String
  | .procedureName => "procedure name after 'create'"
  | .variableName => "variable name after 'in'"
  | .into => "'in'"
  | .closing => "')'"
  | .expression => "an expression"

inductive SourceFault where
  | loneDot
  | strayCharacter (c : Char)
  | unexpected (wanted : Expected) (found : Token)
  | missingEnd (procedure : String)
deriving DecidableEq, Repr

def SourceFault.text : SourceFault → String
  | .loneDot => "invalid number '.'"
  | .strayCharacter c => "unexpected character '" ++ c.toString ++ "'"
  | .unexpected wanted found => "expected " ++ wanted.text ++ ", found " ++ found.description
  | .missingEnd procedure => "procedure " ++ procedure ++ " is missing 'end'"

structure SourceError where
  position : Position
  fault : SourceFault
deriving DecidableEq, Repr

def SourceError.message (e : SourceError) : String :=
  "Parse error at " ++ toString e.position.line ++ ":" ++ toString e.position.column ++ ": " ++
    e.fault.text

inductive StructureFault where
  | alreadyGenerated
  | noRoot
  | rootKind (kind : Kind)
  | noItems
  | voidResult
  | bodyKind (procedure : String) (kind : Kind)
  | notGenerated
  | other (reason : String)
deriving DecidableEq, Repr

def StructureFault.text : StructureFault → String
  | .alreadyGenerated => "code has already been generated"
  | .noRoot => "no code provided, root node is empty"
  | .rootKind kind => "root node is a " ++ kind.title ++ ", expected Program"
  | .noItems => "program has no items"
  | .voidResult => "last top-level item did not produce a value"
  | .bodyKind procedure kind =>
      "body of procedure " ++ procedure ++ " is a " ++ kind.title ++ ", expected ProcedureBody"
  | .notGenerated => "program has not been generated"
  | .other reason => reason

inductive Flaw where
  | emptyBlock (block : String)
  | unterminated (block : String)
  | earlyTerminator (block : String)
  | notInstruction (v : ValueId)
  | foreignOperand (v : ValueId) (owner : String)
  | notNumeric (v : ValueId)
  | notPointer (v : ValueId)
  | missingValue
  | unexpectedValue
deriving DecidableEq, Repr

def Flaw.text : Flaw → String
  | .emptyBlock block => "block " ++ block ++ " is empty"
  | .unterminated block => "block " ++ block ++ " has no terminator"
  | .earlyTerminator block => "block " ++ block ++ " has a terminator before its end"
  | .notInstruction v => "%" ++ toString v.index ++ " is not an instruction"
  | .foreignOperand v owner => "operand %" ++ toString v.index ++ " belongs to function " ++ owner
  | .notNumeric v => "operand %" ++ toString v.index ++ " is not numeric"
  | .notPointer v => "operand %" ++ toString v.index ++ " is not a pointer"
  | .missingValue => "missing return value"
  | .unexpectedValue => "void function returns a value"

inductive Trap where
  | noEntry (name : String)
  | voidEntry (name : String)
  | noResult (name : String)
  | noBody (name : String)
  | fellOff (block function : String)
  | depth (limit : Nat) (callee : String)
  | undefined (v : ValueId)
  | readEarly (p : ValueId)
  | writtenEarly (p : ValueId)
  | badLoad (p : ValueId)
  | badStore (p : ValueId)
  | notInstruction (v : ValueId)
deriving DecidableEq, Repr

def Trap.text : Trap → String
  | .noEntry name => "could not find function '" ++ name ++ "'"
  | .voidEntry name => "function '" ++ name ++ "' does not return a number"
  | .noResult name => "function '" ++ name ++ "' returned no value"
  | .noBody name => "call to function '" ++ name ++ "' without a body"
  | .fellOff block function =>
      "block " ++ block ++ " of '" ++ function ++ "' ended without a terminator"
  | .depth limit callee =>
      "call depth limit of " ++ toString limit ++ " exceeded in '" ++ callee ++ "'"
  | .undefined v => "value %" ++ toString v.index ++ " used before definition"
  | .readEarly p => "slot %" ++ toString p.index ++ " read before allocation"
  | .writtenEarly p => "slot %" ++ toString p.index ++ " written before allocation"
  | .badLoad p => "load from non-pointer %" ++ toString p.index
  | .badStore p => "store to non-pointer %" ++ toString p.index
  | .notInstruction v => "%" ++ toString v.index ++ " is not an instruction"

inductive BackendFault where
  | noPosition
  | notNumeric (user : String) (operation : Operation)
  | notPointer (operation : Operation)
  | unknownFunction (f : FuncId)
  | valueFromVoid
  | voidFromNumber
  | flawed (function : String) (flaw : Flaw)
  | trapped (trap : Trap)
  | operandKind (op : Operator) (found : LoweredKind)
  | assignedKind (name : String) (found : LoweredKind)
  | unavailable
  | other (reason : String)
deriving DecidableEq, Repr

def BackendFault.text : BackendFault → String
  | .noPosition => "builder position is not set"
  | .notNumeric user operation =>
      user ++ " operand " ++ operation.text ++ " is not a numeric value"
  | .notPointer operation => "operand " ++ operation.text ++ " is not a pointer"
  | .unknownFunction f => "unknown function " ++ f.text
  | .valueFromVoid => "value returned from a void function"
  | .voidFromNumber => "void return from a function returning a number"
  | .flawed function flaw => "function " ++ function ++ ": " ++ flaw.text
  | .trapped trap => trap.text
  | .operandKind op found =>
      "operand of '" ++ op.symbol.toString ++ "' is a " ++ found.title ++ ", not a number"
  | .assignedKind name found =>
      "value assigned to " ++ name ++ " is a " ++ found.title ++ ", not a number"
  | .unavailable => "hebe was built without the `llvm` feature"
  | .other reason => reason

inductive Unsupported where
  | program
  | operator (symbol : Char)
deriving DecidableEq, Repr

def Unsupported.text : Unsupported → String
  | .program => "Program"
  | .operator symbol => "BinaryOp '" ++ symbol.toString ++ "'"

inductive FileFault where
  | missing
  | directory
  | notDirectory
  | longName
  | nulCharacter
  | notText
  | other (reason : String)
deriving DecidableEq, Repr

def FileFault.text : FileFault → String
  | .missing => "No such file or directory (os error 2)"
  | .directory => "Is a directory (os error 21)"
  | .notDirectory => "Not a directory (os error 20)"
  | .longName => "File name too long (os error 36)"
  | .nulCharacter => "file name contained an unexpected NUL byte"
  | .notText => "stream did not contain valid UTF-8"
  | .other reason => reason

inductive Error where
  | structural (fault : StructureFault)
  | duplicate (kind : SymbolKind) (name : String)
  | notFound (kind : SymbolKind) (name : String)
  | unsupported (what : Unsupported)
  | backend (fault : BackendFault)
  | source (e : SourceError)
  | file (fault : FileFault)
deriving DecidableEq, Repr

def duplicateMessage (kind : SymbolKind) (name : String) : String :=
  kind.title ++ " " ++ name ++ " already exists and can not be created"

def unsupportedMessage (what : Unsupported) : String :=
  "Code generation for " ++ what.text ++ " not supported"

def Error.message : Error → String
  | .structural fault => "Structural error: " ++ fault.text
  | .duplicate kind name => duplicateMessage kind name
  | .notFound kind name => kind.title ++ " " ++ name ++ " not found"
  | .unsupported what => unsupportedMessage what
  | .backend fault => "Backend error: " ++ fault.text
  | .source e => e.message
  | .file fault => "I/O error: " ++ fault.text

def Operator.ofSymbol (c : Char) : Except Error Operator :=
  match Operator.ofSymbol? c with
  | some op => .ok op
  | none => .error (.unsupported (.operator c))

end Niladic
