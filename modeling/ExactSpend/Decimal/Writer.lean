import ExactSpend.Decimal.Shortest

/-!
# Writing numbers

A number is written with the digits of its shortest decimal.  A style says
when they are written around a point and when with an exponent.
-/

namespace ExactSpend.Decimal

/-- How numbers are written. -/
structure Style where
  /-- Which of two equally near shortest decimals is written. -/
  tie : Tie
  /-- The lowest and the highest place of the point, counted from the first
  digit, at which no exponent is used; without bounds there never is one. -/
  pointPlaces : Option (Int × Int)
  /-- Whether a whole number ends in a point and a zero. -/
  wholePoint : Bool
deriving DecidableEq, Repr

namespace Style

/-- Numbers in messages have no exponent and no needless point. -/
def plain : Style :=
  ⟨.up, none, false⟩

/-- Numbers in tables have a point or an exponent; the point stands within
thirteen digits of the first one and after at most five zeros. -/
def table : Style :=
  ⟨.even, some (-5, 13), true⟩

private def zeros (n : Nat) : List Char :=
  List.replicate n '0'

/-- Digits around a point that stands `place` digits behind the first one's
left edge. -/
def positional (s : Style) (digits : List Char) (place : Int) : List Char :=
  if place ≤ 0 then
    ['0', '.'] ++ zeros (-place).toNat ++ digits
  else if digits.length ≤ place.toNat then
    digits ++ zeros (place.toNat - digits.length) ++
      (if s.wholePoint then ['.', '0'] else [])
  else digits.take place.toNat ++ '.' :: digits.drop place.toNat

/-- One digit, the others behind a point, and the exponent. -/
def scientific (digits : List Char) (place : Int) : List Char :=
  let mantissa := match digits with
    | first :: second :: rest => first :: '.' :: second :: rest
    | short => short
  mantissa ++ 'e' :: (toString (place - 1)).toList

/-- The text of a positive decimal. -/
def decimal (s : Style) (d : Scaled) : List Char :=
  let digits := Nat.toDigits 10 d.digits
  let place := d.exponent + digits.length
  match s.pointPlaces with
  | none => s.positional digits place
  | some (low, high) =>
    if low ≤ place ∧ place ≤ high then s.positional digits place
    else scientific digits place

/-- The text of a number of a format. -/
def text (s : Style) (f : BinaryFormat) : Binary → String
  | .nan => "NaN"
  | .infinite negative => if negative then "-inf" else "inf"
  | .finite negative significand exponent =>
    let sign := if negative then ['-'] else []
    let magnitude :=
      if significand = 0 then '0' :: (if s.wholePoint then ['.', '0'] else [])
      else s.decimal (shortest s.tie f significand exponent)
    String.ofList (sign ++ magnitude)

end Style

/-- A double-precision number as messages show it. -/
def plainText (x : Float) : String :=
  Style.plain.text .double (BinaryFormat.double.decode x.toBits.toNat)

/-- A single-precision number as tables hold it. -/
def tableText (x : Float32) : String :=
  Style.table.text .single (BinaryFormat.single.decode x.toBits.toNat)

end ExactSpend.Decimal
