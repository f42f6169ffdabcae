import ExactSpend.Bounded
import ExactSpend.Decimal.Writer

/-!
# Amounts in bitcoin

Scenarios give amounts in bitcoin, the library counts satoshis.  An amount is
converted through the shortest decimal text of the number, which is read
exactly: it must not be negative, must not be longer than fifty characters and
must have at most eight decimal places.
-/

namespace ExactSpend.Amount

/-- Why a number is no amount. -/
inductive Fault
  | negative
  | tooLarge
  /-- The ninth decimal place stands at this position of the text. -/
  | tooPrecise (position : Nat)
  /-- The text exceeds the longest allowed one by so many characters. -/
  | tooLong (excess : Nat)
  | invalidCharacter (character : Char) (position : Nat)
deriving DecidableEq, Repr

/-- The longest text that is read. -/
def lengthLimit : Nat := 50

/-- The decimal places of a bitcoin that a satoshi is. -/
def places : Nat := 8

/-- The report of a fault. -/
def Fault.message : Fault → String
  | negative => "amount out of range: the amount is less than 0"
  | tooLarge =>
    "amount out of range: the amount is greater than " ++ toString unsignedMax
  | tooPrecise position =>
    "amount has a too high precision: the digits starting from position "
      ++ toString position ++ " represent a sub-satoshi amount"
  | tooLong excess =>
    "the input is too large: the input is "
      ++ (if excess = 1 then "one character"
        else toString excess ++ " characters")
      ++ " longer than the maximum allowed length ("
      ++ toString lengthLimit ++ ")"
  | invalidCharacter character position =>
    "invalid character in the input: the character '"
      ++ String.singleton character
      ++ "' at position " ++ toString position ++ " is not a valid digit"

/-- Reads digits and a point from a position of the text on.  `read` counts
the decimal places read so far, if the point has been passed. -/
def scan : (position value : Nat) → (read : Option Nat) → List Char →
    Except Fault Nat
  | _, value, read, [] =>
    let satoshis := value * Nat.pow 10 (places - read.getD 0)
    if unsignedMax < satoshis then .error .tooLarge else .ok satoshis
  | position, value, read, c :: rest =>
    if c.isDigit then
      let value := value * 10 + (c.toNat - 48)
      if unsignedMax < value then .error .tooLarge
      else match read with
        | none => scan (position + 1) value none rest
        | some n =>
          if n < places then scan (position + 1) value (some (n + 1)) rest
          else .error (.tooPrecise position)
    else if c = '.' ∧ read = none then scan (position + 1) value (some 0) rest
    else .error (.invalidCharacter c position)

/-- Reads the text of an amount.  A minus sign is refused only when all else
has been read, so a faulty text behind it is told first. -/
def ofText (text : List Char) : Except Fault Nat :=
  if lengthLimit < text.length then
    .error (.tooLong (text.length - lengthLimit))
  else match text with
    | '-' :: digits => do
      let _ ← scan 1 0 none digits
      .error .negative
    | digits => scan 0 0 none digits

/-- The satoshis in a number of bitcoin. -/
def ofBitcoin (x : Float) : Except Fault Nat :=
  if x < 0 then .error .negative else ofText (Decimal.plainText x).toList

end ExactSpend.Amount
