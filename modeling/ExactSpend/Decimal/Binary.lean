/-!
# Binary floating-point formats

A format fixes how many bits the significand and the exponent have.  The
module reads the bits of a number into its exact value and finds the bits of
the number nearest to a quotient, both in exact integer arithmetic.
-/

namespace ExactSpend.Decimal

/-- The widths of a binary interchange format; the precision counts the
leading bit of the significand, which is not stored. -/
structure BinaryFormat where
  precision : Nat
  exponentBits : Nat
deriving DecidableEq, Repr

/-- The exact value of a floating-point number. -/
inductive Binary
  | nan
  | infinite (negative : Bool)
  /-- The significand times a power of two. -/
  | finite (negative : Bool) (significand : Nat) (exponent : Int)
deriving DecidableEq, Repr

namespace BinaryFormat

/-- Eleven exponent bits and 53 bits of precision. -/
def double : BinaryFormat := ⟨53, 11⟩

/-- Eight exponent bits and 24 bits of precision. -/
def single : BinaryFormat := ⟨24, 8⟩

/-- The number of stored significand bits. -/
def stored (f : BinaryFormat) : Nat :=
  f.precision - 1

/-- The exponent of the smallest positive number. -/
def leastExponent (f : BinaryFormat) : Int :=
  2 - (Nat.pow 2 (f.exponentBits - 1) : Int) - f.stored

/-- The bits of positive infinity. -/
def infinity (f : BinaryFormat) : Nat :=
  (Nat.pow 2 f.exponentBits - 1) * Nat.pow 2 f.stored

/-- The bit that makes a number negative. -/
def signBit (f : BinaryFormat) : Nat :=
  Nat.pow 2 (f.exponentBits + f.stored)

/-- The bits of a quiet number that is none. -/
def notANumber (f : BinaryFormat) : Nat :=
  f.infinity + Nat.pow 2 (f.stored - 1)

/-- The bits of a magnitude with a sign. -/
def signed (f : BinaryFormat) (negative : Bool) (magnitude : Nat) : Nat :=
  if negative then f.signBit + magnitude else magnitude

/-- The exact value of a bit pattern. -/
def decode (f : BinaryFormat) (bits : Nat) : Binary :=
  let negative := bits / f.signBit % 2 = 1
  let magnitude := bits % f.signBit
  let level := magnitude / Nat.pow 2 f.stored
  let fraction := magnitude % Nat.pow 2 f.stored
  if magnitude > f.infinity then .nan
  else if magnitude = f.infinity then .infinite negative
  else if level = 0 then .finite negative fraction f.leastExponent
  else .finite negative (Nat.pow 2 f.stored + fraction)
    (f.leastExponent + (level - 1 : Nat))

/-- The quotient of two numbers, rounded to the nearest integer, a half to the
even one. -/
def roundQuotient (num den : Nat) : Nat :=
  let q := num / den
  let r := num % den
  if 2 * r > den ∨ 2 * r = den ∧ q % 2 = 1 then q + 1 else q

/-- The bits of the non-negative number nearest to a quotient, of two equally
near ones the even one, and infinity beyond the largest number.  Consecutive
numbers have consecutive bits, so a significand that rounds up to the next
power of two carries into the exponent. -/
def nearest (f : BinaryFormat) (num den : Nat) : Nat :=
  if num = 0 then 0
  else
    let guess : Int := (Nat.log2 num : Int) - Nat.log2 den - f.stored
    let scale (e : Int) : Nat × Nat :=
      (num * Nat.pow 2 (-e).toNat, den * Nat.pow 2 e.toNat)
    let small := scale guess
    let exponent :=
      if small.1 < small.2 * Nat.pow 2 f.stored then guess - 1 else guess
    let exponent := max exponent f.leastExponent
    let (n, d) := scale exponent
    let level := (exponent - f.leastExponent).toNat
    min (level * Nat.pow 2 f.stored + roundQuotient n d) f.infinity

end BinaryFormat

end ExactSpend.Decimal
