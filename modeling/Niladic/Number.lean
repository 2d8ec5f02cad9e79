import Niladic.Decimal.Format

namespace Niladic.Number

inductive Reading where
  | nan
  | infinite (negative : Bool)
  | zero (negative : Bool)
  | finite (negative : Bool) (size : Decimal.Fraction)
deriving DecidableEq, Repr

def read (x : Float) : Reading :=
  let bits := x.toBits.toNat
  let negative := decide (Nat.pow 2 63 ≤ bits)
  let biased : Nat := bits / Nat.pow 2 52 % Nat.pow 2 11
  let low : Nat := bits % Nat.pow 2 52
  if biased = 2047 then
    if low = 0 then .infinite negative else .nan
  else if biased = 0 then
    if low = 0 then .zero negative else .finite negative ⟨low, -1074, false⟩
  else
    .finite negative ⟨Nat.pow 2 52 + low, (biased : Int) - 1075, low == 0 && decide (1 < biased)⟩

private def sign (negative : Bool) : String := if negative then "-" else ""

def write (format : Decimal.Format) (x : Float) : String :=
  match read x with
  | .nan => "NaN"
  | .infinite negative => sign negative ++ "inf"
  | .zero negative => sign negative ++ if format.point then "0.0" else "0"
  | .finite negative size => sign negative ++ String.ofList (size.shortest.write format)

def plain : Decimal.Format := ⟨fun _ => true, false⟩

def marked : Decimal.Format := ⟨fun n => decide (-4 ≤ n) && decide (n < 16), true⟩

def text (x : Float) : String := write plain x

def literal (x : Float) : String := write marked x

def wholePart (f : Decimal.Fraction) : Nat :=
  if f.exponent < 0 then f.mantissa / Nat.pow 2 (-f.exponent).toNat
  else f.mantissa * Nat.pow 2 f.exponent.toNat

def toResult (x : Float) : Int :=
  match read x with
  | .nan | .zero _ => 0
  | .infinite negative => if negative then -2147483648 else 2147483647
  | .finite negative size =>
      if negative then max (-2147483648) (-(wholePart size : Int))
      else min 2147483647 (wholePart size)

def digitsValue (digits : List Char) : Nat :=
  digits.foldl (fun n d => 10 * n + (d.toNat - '0'.toNat)) 0

def ofDigits (whole places : List Char) : Float :=
  Float.ofScientific (digitsValue (whole ++ places)) true places.length

end Niladic.Number
