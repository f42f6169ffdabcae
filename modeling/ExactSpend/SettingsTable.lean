import ExactSpend.Bounded
import ExactSpend.Settings
import ExactSpend.Table.Reader

/-!
# Tables of settings

Settings can be given as a table with column names and one record.  Columns
that name no setting are passed over, settings without a column keep their
defaults.
-/

namespace ExactSpend.Settings

/-- The settings that a column can name. -/
inductive Column
  | groupUsefulnessPercent
  | maxIterations
  | checkInterval
  | moreTolerance
  | lessTolerance
  | maxOverpaymentPercent
  | minPaymentPercent
deriving DecidableEq, Repr

namespace Column

/-- The name of the column. -/
def name : Column → String
  | groupUsefulnessPercent => "group_usefulness_percent"
  | maxIterations => "max_iterations"
  | checkInterval => "cancellation_check_interval"
  | moreTolerance => "more_tolerance"
  | lessTolerance => "less_tolerance"
  | maxOverpaymentPercent => "max_overpayment_percent"
  | minPaymentPercent => "min_payment_percent"

/-- All columns. -/
def all : List Column :=
  [groupUsefulnessPercent, maxIterations, checkInterval, moreTolerance,
    lessTolerance, maxOverpaymentPercent, minPaymentPercent]

/-- The column of a name. -/
def ofName? (text : String) : Option Column :=
  all.find? (·.name = text)

end Column

/-- Reads a count in decimal digits, or in hexadecimal ones behind `0x`. -/
def readCount (field : String) : Except Decimal.CountFault Nat :=
  match field.toList with
  | '0' :: 'x' :: digits => Decimal.readCount 16 unsignedMax digits
  | digits => Decimal.readCount 10 unsignedMax digits

/-- Sets what a column names; an empty field leaves the tolerance above the
target without a value. -/
def set (s : Settings) (column : Column) (field : String) :
    Except Decimal.CountFault Settings :=
  if column = .moreTolerance ∧ field.isEmpty then
    .ok { s with moreTolerance := none }
  else do
    let n ← readCount field
    return match column with
      | .groupUsefulnessPercent => { s with groupUsefulnessPercent := n }
      | .maxIterations => { s with maxIterations := n }
      | .checkInterval => { s with checkInterval := n }
      | .moreTolerance => { s with moreTolerance := some n }
      | .lessTolerance => { s with lessTolerance := n }
      | .maxOverpaymentPercent => { s with maxOverpaymentPercent := n }
      | .minPaymentPercent => { s with minPaymentPercent := n }

/-- Sets what the columns name, from left to right.  A setting must not be
named twice. -/
def setAll (s : Settings) (seen : List Column) :
    List ((String × String) × Nat) → Except Table.Cause Settings
  | [] => .ok s
  | ((name, field), index) :: rest =>
    match Column.ofName? name with
    | none => setAll s seen rest
    | some column =>
      if column ∈ seen then .error (.duplicate name)
      else match s.set column field with
        | .error fault => .error (.count index fault)
        | .ok s => setAll s (column :: seen) rest

/-- The names of the columns.  Where some of them is no text, the fields are
taken for the settings in their order. -/
def columnNames (row : Table.Row) : List String :=
  match row.texts with
  | .ok names => names
  | .error _ => Column.all.map (·.name)

/-- The settings of a table's first record; the defaults without a record. -/
def ofBytes (bytes : List UInt8) : Except Table.Fault Settings :=
  match Table.checkLengths (Table.rows bytes) with
  | .ok names :: .ok row :: _ => do
    let fields ← row.texts
    let named := (columnNames names).zip fields
    (setAll {} [] named.zipIdx).mapError (.unreadable row.start)
  | _ :: .error fault :: _ => .error fault
  | _ => .ok {}

/-- The settings of a table that is a text. -/
def ofTable (text : String) : Except Table.Fault Settings :=
  ofBytes (Text.bytes text)

end ExactSpend.Settings
