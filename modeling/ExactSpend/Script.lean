import Std.Data.TreeMap

/-!
# Scripts

A script is the byte string that locks an output.  Its template decides the
virtual size of an input that spends it, its length decides the size of an
output that pays to it.  Scripts are ordered byte by byte, a proper initial
segment first.
-/

namespace ExactSpend

/-- The locking bytes of an output. -/
structure Script where
  bytes : List UInt8
deriving DecidableEq, Inhabited, Repr

namespace Script

instance : Ord Script :=
  ⟨compareOn Script.bytes⟩

instance : Std.TransOrd Script :=
  inferInstanceAs (Std.TransCmp (compareOn Script.bytes))

instance : Std.LawfulEqOrd Script where
  eq_of_compare {a b} h := by
    have : a.bytes = b.bytes :=
      Std.LawfulEqOrd.eq_of_compare (α := List UInt8) h
    cases a
    cases b
    simp_all

/-- The output templates with a spend size of their own. -/
inductive Template
  | keyHash
  | scriptHash
  | taproot
  | nestedHash
  | other
deriving DecidableEq, Repr

/-- A version byte, the push of a program of `n` bytes, and the program. -/
private def isProgram (version : UInt8) (n : Nat) (bytes : List UInt8) : Bool :=
  bytes.length == n + 2 && bytes.take 2 == [version, UInt8.ofNat n]

/-- Templates are recognised by their exact byte pattern. -/
def template (s : Script) : Template :=
  if isProgram 0x00 20 s.bytes then .keyHash
  else if isProgram 0x51 32 s.bytes then .taproot
  else if s.bytes.length == 23 && s.bytes.take 2 == [0xa9, 0x14]
      && s.bytes.getLast? == some 0x87 then .nestedHash
  else if isProgram 0x00 32 s.bytes then .scriptHash
  else .other

/-- Virtual size of an input that spends an output of this template; a script
of no known template counts as the largest of them. -/
def Template.inputSize : Template → Nat
  | .keyHash => 68
  | .scriptHash => 104
  | .taproot => 58
  | .nestedHash => 91
  | .other => 148

/-- Virtual size of an input that spends this script, guessed from its
template. -/
def inputSize (s : Script) : Nat :=
  s.template.inputSize

/-- Bytes taken by a length written in the compact form: one byte up to 252,
then a marker and two, four or eight bytes. -/
def lengthSize (n : Nat) : Nat :=
  if n ≤ 0xfc then 1
  else if n ≤ 0xffff then 3
  else if n ≤ 0xffffffff then 5
  else 9

/-- Size of an output that pays to this script: eight bytes of amount, the
length and the script. -/
def outputSize (s : Script) : Nat :=
  8 + lengthSize s.bytes.length + s.bytes.length

/-- The `n` low bytes of a number, lowest first. -/
def littleEndian : (n : Nat) → Nat → List UInt8
  | 0, _ => []
  | n + 1, x => UInt8.ofNat x :: littleEndian n (x / 256)

/-- A key-hash script that is distinct for every tag below 256 and index below
2^64: the hash holds the tag, the index and zeros. -/
def numbered (tag : UInt8) (index : Nat) : Script :=
  ⟨0x00 :: 0x14 :: tag :: (littleEndian 8 index ++ List.replicate 11 0)⟩

private def hexDigit (n : Nat) : Char :=
  if n < 10 then Char.ofNat (48 + n) else Char.ofNat (87 + n)

/-- Two lower-case hexadecimal digits per byte. -/
def hex (s : Script) : String :=
  String.ofList (s.bytes.flatMap fun b =>
    [hexDigit (b.toNat / 16), hexDigit (b.toNat % 16)])

private def hexValue? (c : Char) : Option Nat :=
  if '0' ≤ c ∧ c ≤ '9' then some (c.toNat - 48)
  else if 'a' ≤ c ∧ c ≤ 'f' then some (c.toNat - 87)
  else if 'A' ≤ c ∧ c ≤ 'F' then some (c.toNat - 55)
  else none

private def bytesOfHex? : List Char → Option (List UInt8)
  | [] => some []
  | [_] => none
  | a :: b :: rest => do
    let high ← hexValue? a
    let low ← hexValue? b
    let bytes ← bytesOfHex? rest
    return UInt8.ofNat (16 * high + low) :: bytes

/-- Reads pairs of hexadecimal digits of either case. -/
def ofHex? (text : String) : Option Script :=
  (bytesOfHex? text.toList).map Script.mk

end Script

end ExactSpend
