/-!
The shortest decimal of a binary fraction.

A positive binary fraction `m * 2 ^ e` stands for every real that rounds to it. Among the decimals
`c * 10 ^ k` in that interval the coarsest grid `10 ^ k` that meets it is taken, and on that grid
the point nearest to the fraction, the upper one of two that are equally near.
-/

namespace Niladic.Decimal

/-- The fraction `mantissa * 2 ^ exponent`. It is `tight` when its lower neighbour is only half as
far away as its upper one. -/
structure Fraction where
  mantissa : Nat
  exponent : Int
  tight : Bool
deriving DecidableEq, Repr

/-- The reals that round to `value / scale`: they lie between `low / scale` and `high / scale`, and
the ends belong to them when `closed`. -/
structure Interval where
  low : Nat
  value : Nat
  high : Nat
  scale : Nat
  closed : Bool
deriving DecidableEq, Repr

def Fraction.interval (f : Fraction) : Interval :=
  let unit := Nat.pow 2 f.exponent.toNat
  { low := (4 * f.mantissa - if f.tight then 1 else 2) * unit
    value := 4 * f.mantissa * unit
    high := (4 * f.mantissa + 2) * unit
    scale := 4 * Nat.pow 2 (-f.exponent).toNat
    closed := f.mantissa % 2 == 0 }

structure Scaled where
  digits : Nat
  exponent : Int
deriving DecidableEq, Repr

def Fraction.exact (f : Fraction) : Scaled :=
  if f.exponent < 0 then ⟨f.mantissa * Nat.pow 5 (-f.exponent).toNat, f.exponent⟩
  else ⟨f.mantissa * Nat.pow 2 f.exponent.toNat, 0⟩

namespace Interval

def measure (i : Interval) (c : Nat) (k : Int) : Nat := c * i.scale * Nat.pow 10 k.toNat

def contains (i : Interval) (c : Nat) (k : Int) : Bool :=
  let down := Nat.pow 10 (-k).toNat
  let x := i.measure c k
  if i.closed then decide (i.low * down ≤ x) && decide (x ≤ i.high * down)
  else decide (i.low * down < x) && decide (x < i.high * down)

/-- The point of the grid `10 ^ k` in the interval that is nearest to the value, if there is one.
Only the value's two neighbours on the grid can be. -/
def nearest? (i : Interval) (k : Int) : Option Nat :=
  let target := i.value * Nat.pow 10 (-k).toNat
  let c := target / (i.scale * Nat.pow 10 k.toNat)
  match i.contains c k, i.contains (c + 1) k with
  | true, true =>
      if target - i.measure c k < i.measure (c + 1) k - target then some c else some (c + 1)
  | true, false => some c
  | false, true => some (c + 1)
  | false, false => none

def search (i : Interval) : Nat → Int → Option Scaled
  | 0, _ => none
  | count + 1, k =>
      match i.nearest? k with
      | some c => some ⟨c, k⟩
      | none => i.search count (k - 1)

end Interval

/-- Starts above the interval and ends at a grid on which the fraction itself lies. -/
def Fraction.shortest (f : Fraction) : Scaled :=
  let i := f.interval
  let top := (Nat.toDigits 10 (i.high / i.scale)).length
  (i.search (top + (-f.exponent).toNat + 1) top).getD f.exact

theorem Interval.contains_of_nearest? {i : Interval} {k : Int} {c : Nat}
    (h : i.nearest? k = some c) : i.contains c k = true := by
  simp only [Interval.nearest?] at h
  split at h
  · split at h <;> simp_all
  · simp_all
  · simp_all
  · simp at h

theorem Interval.contains_of_search {i : Interval} {s : Scaled} :
    ∀ {count : Nat} {k : Int}, i.search count k = some s → i.contains s.digits s.exponent = true
  | 0, _, h => by simp [Interval.search] at h
  | count + 1, k, h => by
      simp only [Interval.search] at h
      split at h
      next c hc =>
        cases h
        exact Interval.contains_of_nearest? hc
      next => exact Interval.contains_of_search h

end Niladic.Decimal
