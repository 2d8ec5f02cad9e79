import Niladic.Operator

namespace Niladic

inductive Tree where
  | program (items : List Tree)
  | number (value : Float)
  | binary (op : Operator) (left right : Tree)
  | assign (name : String) (value : Tree)
  | body (items : List Tree)
  | procedure (name : String) (body : Tree)
  | call (name : String)
deriving Repr

inductive Kind where
  | assign
  | binary
  | number
  | procedure
  | body
  | call
  | program
deriving DecidableEq, Repr

namespace Kind

def title : Kind → String
  | .assign => "Assignment"
  | .binary => "BinaryOp"
  | .number => "Number"
  | .procedure => "Procedure"
  | .body => "ProcedureBody"
  | .call => "ProcedureCall"
  | .program => "Program"

def all : List Kind := [.assign, .binary, .number, .procedure, .body, .call, .program]

theorem mem_all (k : Kind) : k ∈ all := by
  cases k <;> simp [all]

def ofTitle? (title : String) : Option Kind := all.find? (·.title == title)

end Kind

namespace Tree

def kind : Tree → Kind
  | .program _ => .program
  | .number _ => .number
  | .binary .. => .binary
  | .assign .. => .assign
  | .body _ => .body
  | .procedure .. => .procedure
  | .call _ => .call

def isNumeric : Tree → Bool
  | .number _ | .binary .. => true
  | _ => false

def items? : Tree → Option (List Tree)
  | .program items | .body items => some items
  | _ => none

def negate : Tree → Tree
  | .number value => .number (-value)
  | t => .binary .sub (.number 0.0) t

mutual

/-- Sameness with literals compared as numbers: zeros are equal, and nothing equals a literal that
is not a number. -/
def same : Tree → Tree → Bool
  | .program xs, .program ys => sameAll xs ys
  | .number x, .number y => x == y
  | .binary op l r, .binary op' l' r' => decide (op = op') && same l l' && same r r'
  | .assign x v, .assign y w => x == y && same v w
  | .body xs, .body ys => sameAll xs ys
  | .procedure p b, .procedure q c => p == q && same b c
  | .call p, .call q => p == q
  | _, _ => false

def sameAll : List Tree → List Tree → Bool
  | [], [] => true
  | x :: xs, y :: ys => same x y && sameAll xs ys
  | _, _ => false

end

end Tree

end Niladic
