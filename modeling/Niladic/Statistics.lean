import Niladic.Tree

namespace Niladic

structure Tally where
  assign : Nat := 0
  binary : Nat := 0
  number : Nat := 0
  procedure : Nat := 0
  body : Nat := 0
  call : Nat := 0
  program : Nat := 0
deriving DecidableEq, Repr

namespace Tally

def count (t : Tally) : Kind → Nat
  | .assign => t.assign
  | .binary => t.binary
  | .number => t.number
  | .procedure => t.procedure
  | .body => t.body
  | .call => t.call
  | .program => t.program

def add (t : Tally) : Kind → Tally
  | .assign => { t with assign := t.assign + 1 }
  | .binary => { t with binary := t.binary + 1 }
  | .number => { t with number := t.number + 1 }
  | .procedure => { t with procedure := t.procedure + 1 }
  | .body => { t with body := t.body + 1 }
  | .call => { t with call := t.call + 1 }
  | .program => { t with program := t.program + 1 }

theorem count_add (t : Tally) (k j : Kind) :
    (t.add k).count j = t.count j + if j = k then 1 else 0 := by
  cases k <;> cases j <;> rfl

def present (t : Tally) : List (Kind × Nat) :=
  (Kind.all.map fun k => (k, t.count k)).filter fun entry => entry.2 != 0

end Tally

structure Statistics where
  nodes : Nat := 0
  kinds : Tally := {}
  procedures : Nat := 0
  globals : Nat := 0
  calls : Nat := 0
  anchors : Nat := 0
deriving DecidableEq, Repr

namespace Statistics

def addNode (s : Statistics) (k : Kind) : Statistics :=
  { s with nodes := s.nodes + 1, kinds := s.kinds.add k }

def addProcedure (s : Statistics) : Statistics := { s with procedures := s.procedures + 1 }

def addGlobal (s : Statistics) : Statistics := { s with globals := s.globals + 1 }

def addCall (s : Statistics) : Statistics := { s with calls := s.calls + 1 }

def addAnchor (s : Statistics) : Statistics := { s with anchors := s.anchors + 1 }

def lines (s : Statistics) : List String :=
  [ "Code Generation Statistics:",
    "  Nodes lowered: " ++ toString s.nodes,
    "  Procedures defined: " ++ toString s.procedures,
    "  Globals created: " ++ toString s.globals,
    "  Calls emitted: " ++ toString s.calls,
    "  Anchor stores: " ++ toString s.anchors ] ++
  match s.kinds.present with
  | [] => []
  | present =>
      "  Node breakdown:" ::
        present.map fun entry => "    " ++ entry.1.title ++ ": " ++ toString entry.2

def text (s : Statistics) : String := String.join (s.lines.map (· ++ "\n"))

end Statistics

end Niladic
