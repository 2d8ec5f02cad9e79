import Niladic.Error
import Niladic.Text.Alphabetic
import Niladic.Text.Blank
import Niladic.Text.Numeric

namespace Niladic.Token

def isWordStart (c : Char) : Bool := Text.isAlphabetic c || c == '_'

def isWordPart (c : Char) : Bool := Text.isAlphabetic c || Text.isNumeric c || c == '_'

def ofWord (word : List Char) : Token :=
  match Keyword.ofText? (String.ofList (word.map Char.toLower)) with
  | some k => .keyword k
  | none => .name (String.ofList word)

def ofSymbol? : Char → Option Token
  | '(' => some .opening
  | ')' => some .closing
  | c => (Operator.ofSymbol? c).map .operator

structure Numeral where
  whole : List Char
  places : Option (List Char)
deriving DecidableEq, Repr

namespace Numeral

def cut (cs : List Char) : Numeral :=
  match cs.dropWhile Char.isDigit with
  | '.' :: rest => ⟨cs.takeWhile Char.isDigit, some (rest.takeWhile Char.isDigit)⟩
  | _ => ⟨cs.takeWhile Char.isDigit, none⟩

def length (n : Numeral) : Nat :=
  match n.places with
  | none => n.whole.length
  | some places => n.whole.length + 1 + places.length

def value? (n : Numeral) : Option Float :=
  match n.whole, n.places.getD [] with
  | [], [] => none
  | whole, places => some (Number.ofDigits whole places)

end Numeral

structure Cut where
  token : Option Token
  more : Nat

def cut (c : Char) (rest : List Char) : Except SourceFault Cut :=
  if Text.isBlank c then .ok ⟨none, 0⟩
  else if c = ';' then .ok ⟨none, (rest.takeWhile (· ≠ '\n')).length⟩
  else
    match ofSymbol? c with
    | some token => .ok ⟨some token, 0⟩
    | none =>
        if c.isDigit || c = '.' then
          let numeral := Numeral.cut (c :: rest)
          match numeral.value? with
          | some x => .ok ⟨some (.number x), numeral.length - 1⟩
          | none => .error .loneDot
        else if isWordStart c then
          let more := rest.takeWhile isWordPart
          .ok ⟨some (ofWord (c :: more)), more.length⟩
        else .error (.strayCharacter c)

def scan (found : List Placed) : List Char → Position → Except SourceError (List Placed)
  | [], position => .ok (⟨.stop, position⟩ :: found).reverse
  | c :: rest, position =>
      match cut c rest with
      | .error fault => .error ⟨position, fault⟩
      | .ok ⟨token, more⟩ =>
          let next := (position.after c).afterAll (rest.take more)
          match token with
          | none => scan found (rest.drop more) next
          | some token => scan (⟨token, position⟩ :: found) (rest.drop more) next
termination_by cs => cs.length
decreasing_by
  all_goals
    simp only [List.length_drop, List.length_cons]
    omega

def ofText (text : String) : Except SourceError (List Placed) :=
  scan [] text.toList Position.start

end Niladic.Token
