import Niladic.Log

/-!
The options of the command line. An option's value in an argument of its own is checked only when
the next option, flag or file name is taken up, or at the end; so an unknown flag after it is
reported first.
-/

namespace Niladic

inductive Engine where
  | interpreter
  | native
deriving DecidableEq, Repr

def Engine.name : Engine → String
  | .interpreter => "interp"
  | .native => "llvm"

def Engine.ofName? : String → Option Engine
  | "interp" => some .interpreter
  | "llvm" => some .native
  | _ => none

structure Options where
  input : Option String := none
  dumpTree : Bool := false
  dumpCode : Bool := false
  emit : Option String := none
  engine : Engine := .interpreter
  verbose : Nat := 0
deriving DecidableEq, Repr

def Options.level (options : Options) : Level :=
  match options.verbose, options.dumpTree with
  | 0, false => .warn
  | 0, true | 1, _ => .info
  | 2, _ => .debug
  | _, _ => .trace

inductive Usage where
  | help
  | version
  | unknownArgument
  | invalidValue
  | tooManyValues
  | conflict
deriving DecidableEq, Repr

def Usage.exitCode : Usage → Nat
  | .help | .version => 0
  | _ => 2

inductive Flag where
  | dumpTree
  | dumpCode
  | verbose
  | help
  | version
deriving DecidableEq, Repr

inductive Parameter where
  | input
  | emit
  | engine
deriving DecidableEq, Repr

inductive Switch where
  | flag (f : Flag)
  | parameter (p : Parameter)
deriving DecidableEq, Repr

def Switch.ofLong? : String → Option Switch
  | "dump-tree" => some (.flag .dumpTree)
  | "dump-ir" => some (.flag .dumpCode)
  | "verbose" => some (.flag .verbose)
  | "help" => some (.flag .help)
  | "version" => some (.flag .version)
  | "emit-ir" => some (.parameter .emit)
  | "backend" => some (.parameter .engine)
  | _ => none

def Flag.ofShort? : Char → Option Flag
  | 'v' => some .verbose
  | 'h' => some .help
  | 'V' => some .version
  | _ => none

structure ArgumentReading where
  options : Options := {}
  engineGiven : Bool := false
  inputGiven : Bool := false
  plain : Bool := false
  pending : Option (Parameter × Option String) := none

namespace ArgumentReading

def assign (r : ArgumentReading) (value : String) : Parameter → Except Usage ArgumentReading
  | .input =>
      if value.isEmpty then .error .invalidValue
      else .ok { r with options.input := some value }
  | .emit =>
      if r.options.emit.isSome then .error .conflict
      else if value.isEmpty then .error .invalidValue
      else .ok { r with options.emit := some value }
  | .engine =>
      if r.engineGiven then .error .conflict
      else
        match Engine.ofName? value with
        | some engine => .ok { r with options.engine := engine, engineGiven := true }
        | none => .error .invalidValue

def settle (r : ArgumentReading) : Except Usage ArgumentReading :=
  match r.pending with
  | none => .ok r
  | some (_, none) => .error .invalidValue
  | some (p, some value) => { r with pending := none }.assign value p

def raise (r : ArgumentReading) : Flag → Except Usage ArgumentReading
  | .dumpTree =>
      if r.options.dumpTree then .error .conflict else .ok { r with options.dumpTree := true }
  | .dumpCode =>
      if r.options.dumpCode then .error .conflict else .ok { r with options.dumpCode := true }
  | .verbose => .ok { r with options.verbose := min 255 (r.options.verbose + 1) }
  | .help => .error .help
  | .version => .error .version

def readFile (r : ArgumentReading) (name : String) : Except Usage ArgumentReading := do
  if r.inputGiven then .error .unknownArgument
  else
    let r ← r.settle
    .ok { r with pending := some (.input, some name), inputGiven := true }

def readLong (r : ArgumentReading) (name : String) (value : Option String) :
    Except Usage ArgumentReading := do
  match Switch.ofLong? name, value with
  | none, _ => .error .unknownArgument
  | some (.flag _), some _ => .error .tooManyValues
  | some (.flag flag), none => (← r.settle).raise flag
  | some (.parameter p), some value => (← r.settle).assign value p
  | some (.parameter p), none => .ok { (← r.settle) with pending := some (p, none) }

def readShort (r : ArgumentReading) : List Char → Except Usage ArgumentReading
  | [] => .ok r
  | c :: rest => do
      match Flag.ofShort? c with
      | none => .error .unknownArgument
      | some flag => ((← (← r.settle).raise flag)).readShort rest

def splitValue (text : List Char) : String × Option String :=
  let name := String.ofList (text.takeWhile (· ≠ '='))
  match text.dropWhile (· ≠ '=') with
  | [] => (name, none)
  | _ :: value => (name, some (String.ofList value))

def readPlain (r : ArgumentReading) (argument : String) : Except Usage ArgumentReading :=
  match r.pending with
  | some (p, none) => .ok { r with pending := some (p, some argument) }
  | _ => r.readFile argument

def readArgument (r : ArgumentReading) (argument : String) : Except Usage ArgumentReading :=
  if r.plain then r.readFile argument
  else
    match argument.toList with
    | ['-', '-'] => .ok { r with plain := true }
    | '-' :: '-' :: text =>
        let (name, value) := splitValue text
        r.readLong name value
    | '-' :: c :: rest => r.readShort (c :: rest)
    | _ => r.readPlain argument

end ArgumentReading

def Options.ofArguments (arguments : List String) : Except Usage Options := do
  let r ← arguments.foldlM ArgumentReading.readArgument {}
  return (← r.settle).options

end Niladic
