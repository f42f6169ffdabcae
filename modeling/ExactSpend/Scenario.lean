import ExactSpend.Table.Reader

/-!
# Scenarios

A scenario is a table without column names.  Each record holds an amount of
bitcoin and a fee rate: a positive amount is a deposit, any other one a
payment of its opposite.
-/

namespace ExactSpend

/-- One event of a scenario. -/
structure ScenarioRow where
  amount : Float
  /-- Bitcoin per thousand virtual bytes. -/
  rate : Float32

namespace ScenarioRow

/-- Reads a real number from a field. -/
def readField (read : String → Except Decimal.RealFault α) (index : Nat)
    (field : String) : Except Table.Cause α :=
  (read field).mapError (.real index)

/-- Reads an event from the first two fields of a record. -/
def ofFields : List String → Except Table.Cause ScenarioRow
  | [] => .error (.tooShort 0 2 "ScenarioEntry")
  | [amount] => do
    let _ ← readField Decimal.readDouble 0 amount
    .error (.tooShort 1 2 "ScenarioEntry")
  | amount :: rate :: _ => do
    let amount ← readField Decimal.readDouble 0 amount
    let rate ← readField Decimal.readSingle 1 rate
    return ⟨amount, rate⟩

/-- Reads an event from a record, all of whose fields have to be texts. -/
def ofRow (row : Table.Row) : Except Table.Fault ScenarioRow := do
  let fields ← row.texts
  (ofFields fields).mapError (.unreadable row.start)

end ScenarioRow

/-- The events of a scenario, each read or refused by itself. -/
def scenarioRows (bytes : List UInt8) :
    List (Except Table.Fault ScenarioRow) :=
  (Table.checkLengths (Table.rows bytes)).map (· >>= ScenarioRow.ofRow)

end ExactSpend
