import Niladic.CommandLine.Run

namespace Niladic

/-- Some calls report the negative of a fault's number. -/
def faultNumber (code : UInt32) : UInt32 := if code < 4096 then code else 0 - code

def faultOf : IO.Error → FileFault
  | .noFileOrDirectory .. => .missing
  | .inappropriateType _ code _ =>
      if faultNumber code = 21 then .directory else .notDirectory
  | .invalidArgument _ code details =>
      match faultNumber code with
      | 22 => .nulCharacter
      | 36 => .longName
      | _ => .other details
  | e => .other (toString e)

def guarded {α : Type} (x : IO α) : IO (Except FileFault α) := do
  try return .ok (← x)
  catch e => return .error (faultOf e)

partial def readRest (stream : IO.FS.Stream) (found : ByteArray) : IO ByteArray := do
  let chunk ← stream.read 65536
  if chunk.isEmpty then return found else readRest stream (found ++ chunk)

def systemHost : Host IO where
  readFile path := guarded (IO.FS.readBinFile path)
  readInput := do readRest (← IO.getStdin) ByteArray.empty
  writeFile path text := guarded (IO.FS.writeFile path text)

def Usage.text : Usage → String
  | .help =>
      "Compile and run a hebe program\n\n" ++
      "Usage: hebe [OPTIONS] [INPUT]\n\n" ++
      "  --dump-tree          Log the structured tree before generating code\n" ++
      "  --dump-ir            Print the generated program representation to stdout\n" ++
      "  --emit-ir <PATH>     Write the generated program representation to a file\n" ++
      "  --backend <BACKEND>  interp or llvm\n" ++
      "  -v, --verbose        Increase log verbosity\n" ++
      "  -h, --help           Print help\n" ++
      "  -V, --version        Print version\n"
  | .version => "hebe 0.1.0\n"
  | .unknownArgument => "error: unexpected argument found\n"
  | .invalidValue => "error: invalid value for an argument\n"
  | .tooManyValues => "error: unexpected value for a flag\n"
  | .conflict => "error: an argument cannot be used multiple times\n"

def Stop.text : Stop → String
  | .error e => e.message
  | .badHandle => "a handle points outside its table"

end Niladic

open Niladic in
def main (arguments : List String) : IO UInt32 := do
  let out ← IO.getStdout
  let err ← IO.getStderr
  match Options.ofArguments arguments with
  | .error usage =>
      let stream := if usage.exitCode = 0 then out else err
      stream.putStr usage.text
      return usage.exitCode.toUInt32
  | .ok options =>
      let report ← CommandLine.run systemHost options
      out.putStr report.output
      for line in Log.lines report.log options.level do
        err.putStrLn line
      match report.result with
      | .ok x => return (x % 256).toNat.toUInt32
      | .error stop =>
          err.putStrLn ("Error: " ++ stop.text)
          return 1
