import Niladic.Number
import Niladic.Operator

namespace Niladic

structure Position where
  line : Nat
  column : Nat
deriving DecidableEq, Repr

def Position.start : Position := ⟨1, 1⟩

def Position.after (p : Position) (c : Char) : Position :=
  if c = '\n' then ⟨p.line + 1, 1⟩ else ⟨p.line, p.column + 1⟩

def Position.afterAll (p : Position) (cs : List Char) : Position := cs.foldl Position.after p

inductive Keyword where
  | create
  | finish
  | save
  | into
deriving DecidableEq, Repr

def Keyword.text : Keyword → String
  | .create => "create"
  | .finish => "end"
  | .save => "save"
  | .into => "in"

def Keyword.ofText? : String → Option Keyword
  | "create" => some .create
  | "end" => some .finish
  | "save" => some .save
  | "in" => some .into
  | _ => none

theorem Keyword.ofText?_text (k : Keyword) : ofText? k.text = some k := by
  cases k <;> rfl

inductive Token where
  | number (value : Float)
  | name (text : String)
  | keyword (k : Keyword)
  | operator (op : Operator)
  | opening
  | closing
  | stop
deriving DecidableEq, Repr

def Token.description : Token → String
  | .number value => "number " ++ Number.text value
  | .name text => "identifier '" ++ text ++ "'"
  | .keyword k => "'" ++ k.text ++ "'"
  | .operator op => "'" ++ op.symbol.toString ++ "'"
  | .opening => "'('"
  | .closing => "')'"
  | .stop => "end of input"

structure Placed where
  token : Token
  position : Position
deriving DecidableEq, Repr

end Niladic
