import ExactSpend.Decimal.Binary

/-!
# Shortest decimals

Every finite number of a format is nearest to all reals of an interval around
it.  Of the decimals in this interval the shortest are those on the coarsest
grid of powers of ten that has a point there; among them the one nearest to
the number is its shortest decimal.
-/

namespace ExactSpend.Decimal

/-- Which of two equally near decimals is taken. -/
inductive Tie
  | even
  | up
deriving DecidableEq, Repr

/-- The decimal `digits * 10 ^ exponent`. -/
structure Scaled where
  digits : Nat
  exponent : Int
deriving DecidableEq, Repr

/-- The interval of reals that round to a number, over a common denominator. -/
structure Interval where
  low : Nat
  middle : Nat
  high : Nat
  den : Nat
  /-- Whether the ends belong to the interval. -/
  closed : Bool
deriving DecidableEq, Repr

namespace Interval

/-- The interval around a positive number.  Below a power of two the numbers
lie twice as dense, except at the bottom of the format. -/
def around (f : BinaryFormat) (significand : Nat) (exponent : Int) : Interval :=
  let narrow := significand = Nat.pow 2 f.stored ∧ f.leastExponent < exponent
  let up := Nat.pow 2 (exponent - 2).toNat
  { low := (4 * significand - if narrow then 1 else 2) * up
    middle := 4 * significand * up
    high := (4 * significand + 2) * up
    den := Nat.pow 2 (2 - exponent).toNat
    closed := significand % 2 = 0 }

/-- Whether the quotient of a number by `den` lies in the interval. -/
def holds (i : Interval) (x : Nat) : Bool :=
  if i.closed then i.low ≤ x ∧ x ≤ i.high else i.low < x ∧ x < i.high

/-- The interval in units of a power of ten. -/
def inUnits (i : Interval) (unit : Int) : Interval :=
  let shrink := Nat.pow 10 unit.toNat
  let grow := Nat.pow 10 (-unit).toNat
  ⟨i.low * grow, i.middle * grow, i.high * grow, i.den * shrink, i.closed⟩

/-- The multiple of one unit that lies in the interval and is nearest to its
middle; only the two multiples next to the middle can be. -/
def multiple? (tie : Tie) (i : Interval) : Option Nat :=
  let below := i.middle / i.den
  let above := below + 1
  match i.holds (below * i.den), i.holds (above * i.den) with
  | true, false => some below
  | false, true => some above
  | false, false => none
  | true, true =>
    let down := i.middle - below * i.den
    let rise := above * i.den - i.middle
    if down < rise then some below
    else if rise < down then some above
    else match tie with
      | .up => some above
      | .even => some (if below % 2 = 0 then below else above)

/-- Tries units from a coarse one on, each a tenth of the one before. -/
def descend (tie : Tie) (i : Interval) : (steps : Nat) → (unit : Int) → Scaled
  | 0, unit => ⟨(i.inUnits unit).middle / (i.inUnits unit).den, unit⟩
  | steps + 1, unit =>
    match (i.inUnits unit).multiple? tie with
    | some digits => ⟨digits, unit⟩
    | none => descend tie i steps (unit - 1)

end Interval

/-- The shortest decimal that rounds to a positive number.  The coarsest unit
tried lies above the number: the power of two above it has at most as many
digits as its exponent times 30103 / 100000 says, and one more for safety. -/
def shortest (tie : Tie) (f : BinaryFormat) (significand : Nat)
    (exponent : Int) : Scaled :=
  let power := exponent + Nat.log2 significand
  let unit := (power * 30103).fdiv 100000 + 2
  (Interval.around f significand exponent).descend tie 22 unit

end ExactSpend.Decimal
