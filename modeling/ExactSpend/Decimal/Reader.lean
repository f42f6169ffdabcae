import ExactSpend.Decimal.Binary

/-!
# Reading numbers

Two kinds of text are read.  A count is a row of digits with an optional plus
sign that fits an unsigned word.  A real number is written with an optional
sign, digits with an optional point, and an optional exponent, or as a word
for infinity or for no number; it stands for the nearest number of a format.
-/

namespace ExactSpend.Decimal

/-- The value of a digit below the radix. -/
def digitValue? (radix : Nat) (c : Char) : Option Nat :=
  let value :=
    if '0' ≤ c ∧ c ≤ '9' then c.toNat - 48
    else if 'a' ≤ c ∧ c ≤ 'z' then c.toNat - 87
    else if 'A' ≤ c ∧ c ≤ 'Z' then c.toNat - 55
    else radix
  if value < radix then some value else none

/-- Why a text is no count. -/
inductive CountFault
  | empty
  | invalidDigit
  | tooLarge
deriving DecidableEq, Repr

/-- The report of a fault. -/
def CountFault.message : CountFault → String
  | empty => "cannot parse integer from empty string"
  | invalidDigit => "invalid digit found in string"
  | tooLarge => "number too large to fit in target type"

/-- Reads digits up to the end.  Each is looked at before it is counted, and
the first that is none or makes the count too large decides. -/
def countDigits (radix limit : Nat) : (count : Nat) → List Char →
    Except CountFault Nat
  | count, [] => .ok count
  | count, c :: rest =>
    match digitValue? radix c with
    | none => .error .invalidDigit
    | some d =>
      if limit < count * radix + d then .error .tooLarge
      else countDigits radix limit (count * radix + d) rest

/-- Reads a count that is at most `limit`. -/
def readCount (radix limit : Nat) : List Char → Except CountFault Nat
  | [] => .error .empty
  | ['+'] => .error .invalidDigit
  | '+' :: digits => countDigits radix limit 0 digits
  | digits => countDigits radix limit 0 digits

/-- Why a text is no real number. -/
inductive RealFault
  | empty
  | invalid
deriving DecidableEq, Repr

/-- The report of a fault. -/
def RealFault.message : RealFault → String
  | empty => "cannot parse float from empty string"
  | invalid => "invalid float literal"

/-- What a text for a real number says. -/
inductive Numeral
  | nan (negative : Bool)
  | infinite (negative : Bool)
  /-- A whole number times a power of ten. -/
  | finite (negative : Bool) (digits : Nat) (exponent : Int)
deriving DecidableEq, Repr

/-- The value of a row of decimal digits. -/
def digitsValue (digits : List Char) : Nat :=
  digits.foldl (fun n c => n * 10 + (c.toNat - 48)) 0

/-- The value of the digits of an exponent.  One that has reached 65536 takes up
no further digits. -/
def exponentValue (digits : List Char) : Nat :=
  digits.foldl (fun n c => if n < 65536 then n * 10 + (c.toNat - 48) else n) 0

/-- Reads the rest of a number behind its significant digits: nothing, or an
exponent mark with a sign and digits. -/
def exponent? : List Char → Option Int
  | [] => some 0
  | mark :: rest =>
    if mark = 'e' ∨ mark = 'E' then
      let (negative, digits) := match rest with
        | '-' :: digits => (true, digits)
        | '+' :: digits => (false, digits)
        | digits => (false, digits)
      if digits.isEmpty ∨ !digits.all Char.isDigit then none
      else if negative then some (-(exponentValue digits : Int))
      else some (exponentValue digits)
    else none

/-- Reads a number without its sign. -/
def unsigned? (negative : Bool) (text : List Char) : Option Numeral :=
  let lower := text.map Char.toLower
  if lower = "nan".toList then some (.nan negative)
  else if lower = "inf".toList ∨ lower = "infinity".toList then
    some (.infinite negative)
  else
    let whole := text.takeWhile Char.isDigit
    let rest := text.dropWhile Char.isDigit
    let (places, rest) := match rest with
      | '.' :: rest =>
          (rest.takeWhile Char.isDigit, rest.dropWhile Char.isDigit)
      | rest => ([], rest)
    if whole.isEmpty ∧ places.isEmpty then none
    else do
      let exponent ← exponent? rest
      return .finite negative (digitsValue (whole ++ places))
        (exponent - places.length)

/-- Reads the text of a real number. -/
def Numeral.read (text : List Char) : Except RealFault Numeral :=
  let numeral := match text with
    | '-' :: rest => unsigned? true rest
    | '+' :: rest => unsigned? false rest
    | rest => unsigned? false rest
  if text.isEmpty then .error .empty
  else match numeral with
    | some n => .ok n
    | none => .error .invalid

/-- The number of decimal digits of a positive number. -/
def digitCount (n : Nat) : Nat :=
  (Nat.toDigits 10 n).length

/-- The bits of the number of a format that a numeral stands for.  Far outside
the format's range the answer is known without forming the power of ten. -/
def Numeral.bits (f : BinaryFormat) : Numeral → Nat
  | nan negative => f.signed negative f.notANumber
  | infinite negative => f.signed negative f.infinity
  | finite negative digits exponent =>
    let point := exponent + digitCount digits
    let magnitude :=
      if digits = 0 ∨ point < -400 then 0
      else if point > 400 then f.infinity
      else f.nearest (digits * Nat.pow 10 exponent.toNat)
        (Nat.pow 10 (-exponent).toNat)
    f.signed negative magnitude

/-- Reads a double-precision number. -/
def readDouble (text : String) : Except RealFault Float :=
  (Numeral.read text.toList).map fun n =>
    Float.ofBits (UInt64.ofNat (n.bits .double))

/-- Reads a single-precision number. -/
def readSingle (text : String) : Except RealFault Float32 :=
  (Numeral.read text.toList).map fun n =>
    Float32.ofBits (UInt32.ofNat (n.bits .single))

end ExactSpend.Decimal
