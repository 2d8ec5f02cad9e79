import Niladic.Decimal.Shortest

namespace Niladic.Decimal

structure Format where
  /-- The exponents of the leading digit that are written positionally. -/
  positional : Int → Bool
  point : Bool

namespace Scaled

def magnitude (s : Scaled) : Int := (Nat.toDigits 10 s.digits).length + s.exponent - 1

private def zeros (n : Nat) : List Char := List.replicate n '0'

def positional (s : Scaled) (point : Bool) : List Char :=
  let digits := Nat.toDigits 10 s.digits
  if 0 ≤ s.exponent then
    digits ++ zeros s.exponent.toNat ++ if point then ['.', '0'] else []
  else
    let places := (-s.exponent).toNat
    let padded := zeros (places + 1 - digits.length) ++ digits
    padded.take (padded.length - places) ++ '.' :: padded.drop (padded.length - places)

def scientific (s : Scaled) : List Char :=
  let mantissa :=
    match Nat.toDigits 10 s.digits with
    | lead :: d :: rest => lead :: '.' :: d :: rest
    | digits => digits
  let exponent :=
    if s.magnitude < 0 then '-' :: Nat.toDigits 10 (-s.magnitude).toNat
    else Nat.toDigits 10 s.magnitude.toNat
  mantissa ++ 'e' :: exponent

def write (format : Format) (s : Scaled) : List Char :=
  if format.positional s.magnitude then s.positional format.point else s.scientific

end Scaled

end Niladic.Decimal
