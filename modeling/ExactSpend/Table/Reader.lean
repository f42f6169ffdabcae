import ExactSpend.Decimal.Reader
import ExactSpend.Text

/-!
# Reading tables

Records end at a line feed or a carriage return, fields at a comma; empty
lines are no records.  A field that begins with a quote goes on to the next
single quote, whatever stands between.  Every record is known by the place
where the one before it ended, which is the place that faults tell.

A table is read byte by byte.  Whether the fields of a record are texts is
asked when the record is used, so a record of other bytes does no harm to the
records before it.
-/

namespace ExactSpend.Table

/-- A place in a table: the records, line feeds and bytes before it, where
lines are counted from one. -/
structure Position where
  record : Nat
  line : Nat
  byte : Nat
deriving DecidableEq, Repr

/-- The fields of a record and the place where the record before it ended. -/
structure Row where
  fields : List (List UInt8)
  start : Position
deriving DecidableEq, Repr

/-- Where in a record the reader stands. -/
inductive Standing
  | between
  | fieldStart
  | bare
  | quoted
  /-- After a quote inside a quoted field: the field's end or half a quote. -/
  | quoteSeen
deriving DecidableEq, Repr

/-- What has been read so far; fields and bytes stand in reverse. -/
structure Scanner where
  standing : Standing := .between
  /-- Where the last complete record ended. -/
  start : Position := ⟨0, 1, 0⟩
  /-- The place of the next byte. -/
  here : Position := ⟨0, 1, 0⟩
  field : List UInt8 := []
  fields : List (List UInt8) := []
  rows : Array Row := #[]

/-- A record ends with this byte. -/
def isLineEnd (b : UInt8) : Bool :=
  b = '\n'.toUInt8 ∨ b = '\r'.toUInt8

namespace Scanner

/-- Ends the field. -/
def endField (s : Scanner) : Scanner :=
  { s with
    standing := .fieldStart
    field := []
    fields := s.field.reverse :: s.fields }

/-- Ends the field and the record. -/
def endRecord (s : Scanner) : Scanner :=
  let ended := s.endField
  let here := { s.here with record := s.here.record + 1 }
  { standing := .between
    start := here
    here
    rows := s.rows.push ⟨ended.fields.reverse, s.start⟩ }

/-- Adds a byte to the field. -/
def keep (s : Scanner) (standing : Standing) (b : UInt8) : Scanner :=
  { s with standing, field := b :: s.field }

/-- A separator, a line end or a byte of a field outside quotes. -/
def unquoted (s : Scanner) (b : UInt8) : Scanner :=
  if b = ','.toUInt8 then s.endField
  else if isLineEnd b then s.endRecord
  else s.keep .bare b

/-- Moves past a byte. -/
def advance (s : Scanner) (b : UInt8) : Scanner :=
  { s with here := {
      record := s.here.record
      line := if b = '\n'.toUInt8 then s.here.line + 1 else s.here.line
      byte := s.here.byte + 1 } }

/-- Reads one byte. -/
def step (s : Scanner) (b : UInt8) : Scanner :=
  let s := s.advance b
  let isQuote := b = '"'.toUInt8
  match s.standing with
  | .between =>
    if isLineEnd b then s
    else if isQuote then { s with standing := .quoted }
    else s.unquoted b
  | .fieldStart =>
    if isQuote then { s with standing := .quoted } else s.unquoted b
  | .bare => s.unquoted b
  | .quoted =>
    if isQuote then { s with standing := .quoteSeen } else s.keep .quoted b
  | .quoteSeen => if isQuote then s.keep .quoted b else s.unquoted b

/-- The rows read when the table ends; an unfinished record ends with it. -/
def finish (s : Scanner) : List Row :=
  match s.standing with
  | .between => s.rows.toList
  | _ => s.endRecord.rows.toList

end Scanner

/-- The records of a table.  A byte order mark at the beginning belongs to no
field, but its three bytes count. -/
def rows (bytes : List UInt8) : List Row :=
  match bytes with
  | 0xEF :: 0xBB :: 0xBF :: rest =>
    (rest.foldl Scanner.step { here := ⟨0, 1, 3⟩ }).finish
  | bytes => (bytes.foldl Scanner.step {}).finish

/-- What is wrong with the fields of a record. -/
inductive Cause
  | real (field : Nat) (fault : Decimal.RealFault)
  | count (field : Nat) (fault : Decimal.CountFault)
  | duplicate (column : String)
  | tooShort (found expected : Nat) (record : String)
deriving DecidableEq, Repr

/-- The report of a cause, behind the number of the field it is in. -/
def Cause.message : Cause → String
  | real field fault => "field " ++ toString field ++ ": " ++ fault.message
  | count field fault => "field " ++ toString field ++ ": " ++ fault.message
  | duplicate column => "duplicate field \x60" ++ column ++ "\x60"
  | tooShort found expected record =>
    "invalid length " ++ toString found ++ ", expected struct " ++ record
      ++ " with " ++ toString expected ++ " elements"

/-- Why a record cannot be used. -/
inductive Fault
  | unequalLengths (start : Position) (found expected : Nat)
  /-- The bytes of a field are a text up to some length only. -/
  | notText (start : Position) (field validLength : Nat)
  | unreadable (start : Position) (cause : Cause)
deriving DecidableEq, Repr

/-- The words for a position. -/
def Position.text (p : Position) : String :=
  "record " ++ toString p.record ++ " (line: " ++ toString p.line ++ ", byte: "
    ++ toString p.byte ++ ")"

/-- The report of a fault. -/
def Fault.message : Fault → String
  | unequalLengths start found expected =>
    "CSV error: " ++ start.text ++ ": found record with " ++ toString found
      ++ " fields, but the previous record has " ++ toString expected
      ++ " fields"
  | notText start field validLength =>
    "CSV parse error: record " ++ toString start.record ++ " (line "
      ++ toString start.line ++ ", field: " ++ toString field ++ ", byte: "
      ++ toString start.byte ++ "): invalid utf-8: invalid UTF-8 in field "
      ++ toString field ++ " near byte index " ++ toString validLength
  | unreadable start cause =>
    "CSV deserialize error: " ++ start.text ++ ": " ++ cause.message

/-- The texts of a record's fields; the first field that is no text is the
fault. -/
def Row.texts (row : Row) : Except Fault (List String) :=
  row.fields.zipIdx.mapM fun (field, index) =>
    match Text.ofBytes? field with
    | some text => .ok text
    | none => .error (.notText row.start index (Text.validLength field))

/-- Every record must have as many fields as the first. -/
def checkLengths : List Row → List (Except Fault Row)
  | [] => []
  | first :: rest =>
    .ok first :: rest.map fun row =>
      if row.fields.length = first.fields.length then .ok row
      else .error <|
        .unequalLengths row.start row.fields.length first.fields.length

end ExactSpend.Table
