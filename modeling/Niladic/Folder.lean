import Niladic.Error

namespace Niladic

structure Folder where
  files : List (String × ByteArray) := []

inductive Target where
  | folder
  | file (name : String)
  | slashed (name : String)
  | inside (name : String)
  | nowhere
deriving DecidableEq, Repr

namespace Folder

def parts (path : String) : List String := (path.splitOn "/").filter (· != "")

def onlyDots (parts : List String) : Bool := parts.all fun part => part == "." || part == ".."

def follow (slash : Bool) : List String → Target
  | [] => .folder
  | "." :: rest => follow slash rest
  | ".." :: rest => if onlyDots rest then .folder else .nowhere
  | [name] => if slash then .slashed name else .file name
  | name :: _ :: _ => .inside name

def target (path : String) : Target :=
  if path.isEmpty then .nowhere
  else if path.startsWith "/" then
    if onlyDots (parts path) then .folder else .nowhere
  else follow (path.endsWith "/") (parts path)

def file? (folder : Folder) (name : String) : Option ByteArray := folder.files.lookup name

def nameLimit : Nat := 255

def pathLimit : Nat := 4095

def find (folder : Folder) (name : String) : Except FileFault ByteArray :=
  if nameLimit < name.utf8ByteSize then .error .longName
  else
    match folder.file? name with
    | some content => .ok content
    | none => .error .missing

def enter {α : Type} (folder : Folder) (name : String) : Except FileFault α := do
  let _ ← folder.find name
  .error .notDirectory

def checkPath (path : String) : Except FileFault Unit :=
  if path.toList.contains (Char.ofNat 0) then .error .nulCharacter
  else if pathLimit < path.utf8ByteSize then .error .longName
  else .ok ()

def read (folder : Folder) (path : String) : Except FileFault ByteArray := do
  checkPath path
  match target path with
  | .folder => .error .directory
  | .nowhere => .error .missing
  | .slashed name | .inside name => folder.enter name
  | .file name => folder.find name

def write (folder : Folder) (path : String) (text : String) : Except FileFault Folder := do
  checkPath path
  match target path with
  | .folder | .slashed _ => .error .directory
  | .nowhere => .error .missing
  | .inside name => folder.enter name
  | .file name =>
      if nameLimit < name.utf8ByteSize then .error .longName
      else .ok ⟨(name, text.toUTF8) :: folder.files⟩

end Folder

def decodeText (bytes : ByteArray) : Except FileFault String :=
  match String.fromUTF8? bytes with
  | some text => .ok text
  | none => .error .notText

end Niladic
