import Niladic.Error

/-!
Reading a program from its tokens, one token at a time.

A `Reading` is a program read up to some token: what is being read right now, the items of the
innermost body that are complete, and the procedures around it. Every token takes a reading to the
next one or is rejected, so a fault is found at the first token that no program continues with.
-/

namespace Niladic

structure Pending where
  left : Tree
  op : Operator

def Pending.complete : Option Pending → Tree → Tree
  | none, right => right
  | some pending, right => .binary pending.op pending.left right

structure Nest where
  sum : Option Pending := none
  product : Option Pending := none
  minuses : Nat := 0

def negateTimes : Nat → Tree → Tree
  | 0, t => t
  | n + 1, t => (negateTimes n t).negate

def Nest.term (nest : Nest) (factor : Tree) : Tree :=
  Pending.complete nest.product (negateTimes nest.minuses factor)

inductive Purpose where
  | item
  | save
deriving DecidableEq, Repr

inductive Phase where
  | item
  | procedureName
  | operand (purpose : Purpose) (nest : Nest) (outer : List Nest)
  | operator (purpose : Purpose) (sum : Option Pending) (term : Tree) (outer : List Nest)
  | variableName (value : Tree)

structure Enclosing where
  name : String
  before : List Tree

structure Reading where
  phase : Phase
  items : List Tree
  enclosing : List Enclosing

namespace Reading

def start : Reading := ⟨.item, [], []⟩

def push (r : Reading) (item : Tree) : Reading := { r with phase := .item, items := item :: r.items }

def readOperand (r : Reading) (purpose : Purpose) (nest : Nest) (outer : List Nest) :
    Token → Except SourceFault Reading
  | .number value =>
      .ok { r with phase := .operator purpose nest.sum (nest.term (.number value)) outer }
  | .operator .sub =>
      .ok { r with phase := .operand purpose { nest with minuses := nest.minuses + 1 } outer }
  | .opening => .ok { r with phase := .operand purpose {} (nest :: outer) }
  | token => .error (.unexpected .expression token)

def readItem (r : Reading) : Token → Except SourceFault Reading
  | .keyword .create => .ok { r with phase := .procedureName }
  | .keyword .save => .ok { r with phase := .operand .save {} [] }
  | .name procedure => .ok (r.push (.call procedure))
  | .keyword .finish =>
      match r.enclosing with
      | [] => .error (.unexpected .expression (.keyword .finish))
      | ⟨name, before⟩ :: enclosing =>
          .ok ⟨.item, .procedure name (.body r.items.reverse) :: before, enclosing⟩
  | token => r.readOperand .item {} [] token

def readAfter (r : Reading) (purpose : Purpose) (value : Tree) (token : Token) :
    Except SourceFault Reading :=
  match purpose with
  | .item => (r.push value).readItem token
  | .save =>
      if token = .keyword .into then .ok { r with phase := .variableName value }
      else .error (.unexpected .into token)

def readOperator (r : Reading) (purpose : Purpose) (sum : Option Pending) (term : Tree)
    (outer : List Nest) : Token → Except SourceFault Reading
  | .operator .mul => .ok { r with phase := .operand purpose ⟨sum, some ⟨term, .mul⟩, 0⟩ outer }
  | .operator .div => .ok { r with phase := .operand purpose ⟨sum, some ⟨term, .div⟩, 0⟩ outer }
  | .operator op =>
      .ok { r with
        phase := .operand purpose ⟨some ⟨Pending.complete sum term, op⟩, none, 0⟩ outer }
  | token =>
      match outer with
      | [] => r.readAfter purpose (Pending.complete sum term) token
      | nest :: outer =>
          if token = .closing then
            .ok { r with
              phase := .operator purpose nest.sum (nest.term (Pending.complete sum term)) outer }
          else .error (.unexpected .closing token)

def readProcedureName (r : Reading) : Token → Except SourceFault Reading
  | .name procedure => .ok ⟨.item, [], ⟨procedure, r.items⟩ :: r.enclosing⟩
  | token => .error (.unexpected .procedureName token)

def readVariableName (r : Reading) (value : Tree) : Token → Except SourceFault Reading
  | .name variableName => .ok (r.push (.assign variableName value))
  | token => .error (.unexpected .variableName token)

def step (r : Reading) (token : Token) : Except SourceFault Reading :=
  match r.phase with
  | .item => r.readItem token
  | .procedureName => r.readProcedureName token
  | .operand purpose nest outer => r.readOperand purpose nest outer token
  | .operator purpose sum term outer => r.readOperator purpose sum term outer token
  | .variableName value => r.readVariableName value token

def program (r : Reading) : Except SourceFault Tree :=
  match r.enclosing with
  | [] => .ok (.program r.items.reverse)
  | ⟨name, _⟩ :: _ => .error (.missingEnd name)

def finish (r : Reading) : Except SourceFault Tree :=
  match r.phase with
  | .item => r.program
  | .procedureName => .error (.unexpected .procedureName .stop)
  | .operand .. => .error (.unexpected .expression .stop)
  | .operator _ _ _ (_ :: _) => .error (.unexpected .closing .stop)
  | .operator .item sum term [] => (r.push (Pending.complete sum term)).program
  | .operator .save _ _ [] => .error (.unexpected .into .stop)
  | .variableName _ => .error (.unexpected .variableName .stop)

def readAll (last : Position) (r : Reading) : List Placed → Except SourceError Tree
  | [] => r.finish.mapError (⟨last, ·⟩)
  | ⟨.stop, position⟩ :: _ => r.finish.mapError (⟨position, ·⟩)
  | ⟨token, position⟩ :: rest =>
      match r.step token with
      | .ok r => r.readAll last rest
      | .error fault => .error ⟨position, fault⟩

end Reading

def Tree.ofTokens (tokens : List Placed) : Except SourceError Tree :=
  Reading.start.readAll ((tokens.getLast?.map Placed.position).getD Position.start) tokens

end Niladic
