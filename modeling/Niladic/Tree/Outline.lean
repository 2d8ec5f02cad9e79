import Niladic.Number
import Niladic.Tree

namespace Niladic.Tree

def indented (depth : Nat) (text : String) : String :=
  String.ofList (List.replicate depth '\t') ++ text

mutual

def outline (depth : Nat) : Tree → List String
  | .program items => indented depth "Program:" :: outlineAll (depth + 1) items
  | .number value => [indented depth ("Number: " ++ Number.text value)]
  | .binary op left right =>
      indented depth ("BinaryOp: " ++ op.symbol.toString) ::
        (outline (depth + 1) left ++ outline (depth + 1) right)
  | .assign name value =>
      indented depth "Assignment:" :: indented (depth + 1) ("VariableName: " ++ name) ::
        outline (depth + 1) value
  | .body items => indented depth "ProcedureBody:" :: outlineAll (depth + 1) items
  | .procedure name inner =>
      indented depth "Procedure:" :: indented (depth + 1) ("Name: " ++ name) ::
        outline (depth + 1) inner
  | .call name => [indented depth "ProcedureCall:", indented (depth + 1) ("Name: " ++ name)]

def outlineAll (depth : Nat) : List Tree → List String
  | [] => []
  | item :: rest => outline depth item ++ outlineAll depth rest

end

end Niladic.Tree
