import ExactSpend.Bounded
import ExactSpend.Record
import ExactSpend.Single

/-!
# Statistics

Statistics are running totals over payment records, together with the state of
the wallet that the latest record tells.  A summary is what one line of a
results table shows.  Totals are kept in words and wrap around: the sums of
overpayments and of input counts in words of 64 bits, the counters of the ways
to pay in words of 32.
-/

namespace ExactSpend

/-- How often each way to fund a payment was used.  A way that was never used
has no counter. -/
structure Usage where
  changeless : Option Nat := none
  largestFirst : Option Nat := none
  failed : Option Nat := none
deriving DecidableEq, Repr

namespace Usage

/-- The counter of one way. -/
def counter (u : Usage) : Funding → Option Nat
  | .changeless => u.changeless
  | .largestFirst => u.largestFirst
  | .failed => u.failed

/-- The counter after one more use. -/
def next (counter : Option Nat) : Option Nat :=
  some ((counter.getD 0 + 1) % 4294967296)

/-- Counts one more use of a way. -/
def add (u : Usage) : Funding → Usage
  | .changeless => { u with changeless := next u.changeless }
  | .largestFirst => { u with largestFirst := next u.largestFirst }
  | .failed => { u with failed := next u.failed }

/-- The words for the number of times that a way was used. -/
def entry (f : Funding) (count : Nat) : String :=
  f.name ++ ": " ++ toString count

/-- The ways that were used with their counters, in the order of the ways. -/
def text (u : Usage) : String :=
  ",".intercalate (Funding.all.filterMap fun f => (u.counter f).map (entry f))

end Usage

/-- Running totals over a replay. -/
structure Statistics where
  scenario : String := ""
  deposits : Nat := 0
  usage : Usage := {}
  /-- The balance, coin count and cost to empty of the latest record. -/
  balance : Nat := 0
  coins : Nat := 0
  costToEmpty : Float32 := 0
  negativeInputs : Nat := 0
  /-- The number of payments made without change. -/
  changeless : Nat := 0
  fees : Float32 := 0
  overpayment : Int := 0
  /-- The change amounts of all payments that had change. -/
  changes : Array Nat := #[]
  /-- The input counts of all payments that had inputs. -/
  inputCounts : Array Nat := #[]

namespace Statistics

/-- The number of payments made. -/
def withdrawals (s : Statistics) : Nat :=
  s.changeless + s.changes.size

/-- Takes in a record.  A failed payment counts as used and tells the wallet's
state, but adds to no total. -/
def record (s : Statistics) (r : PaymentRecord) : Statistics :=
  let seen := { s with
    usage := s.usage.add r.funding
    balance := r.balance
    coins := r.coinsAfter
    costToEmpty := r.costToEmpty }
  if r.funding = .failed then seen
  else
    { seen with
      negativeInputs :=
        Unsigned.wrap (seen.negativeInputs + r.negativeInputs.getD 0)
      fees := seen.fees + Single.ofAmount (r.fee.getD 0)
      overpayment := Signed.wrap (seen.overpayment + r.overpayment.getD 0)
      changeless :=
        if r.change.isSome then seen.changeless else seen.changeless + 1
      changes := match r.change with
        | some change => seen.changes.push change
        | none => seen.changes
      inputCounts :=
        if r.inputs.isEmpty then seen.inputCounts
        else seen.inputCounts.push r.inputs.length }

/-- The mean and the standard deviation of counts. -/
def spread (counts : Array Nat) : Float32 × Option Float32 :=
  Single.summary (counts.toList.map Single.ofCount)

/-- The fees divided by the number of payments made. -/
def meanFee (s : Statistics) : Float32 :=
  if s.withdrawals = 0 then 0 else s.fees / Single.ofCount s.withdrawals

open Table

/-- The columns of a table of summaries. -/
def columns : List (Column Statistics) := [
  ⟨"scenario_file", fun s => s.scenario⟩,
  ⟨"current_balance", fun s => toString s.balance⟩,
  ⟨"current_utxo_set_count", fun s => toString s.coins⟩,
  ⟨"deposit_count", fun s => toString s.deposits⟩,
  ⟨"inputs_spent_count",
    fun s => toString (Unsigned.total s.inputCounts.toList)⟩,
  ⟨"withdraw_count", fun s => toString s.withdrawals⟩,
  ⟨"negative_effective_valued_inputs_count",
    fun s => toString s.negativeInputs⟩,
  ⟨"created_change_outputs_count", fun s => toString s.changes.size⟩,
  ⟨"changeless_transaction_count", fun s => toString s.changeless⟩,
  ⟨"min_change_value", fun s => optional toString s.changes.toList.min?⟩,
  ⟨"max_change_value", fun s => optional toString s.changes.toList.max?⟩,
  ⟨"mean_change_value",
    fun s => Decimal.tableText (spread s.changes).1⟩,
  ⟨"std_dev_of_change_value",
    fun s => optional Decimal.tableText (spread s.changes).2⟩,
  ⟨"total_fees", fun s => Decimal.tableText s.fees⟩,
  ⟨"total_overpayment", fun s => toString s.overpayment⟩,
  ⟨"mean_fees_per_withdraw", fun s => Decimal.tableText s.meanFee⟩,
  ⟨"cost_to_empty_at_long_term_fee_rate",
    fun s => Decimal.tableText s.costToEmpty⟩,
  ⟨"total_cost", fun s => Decimal.tableText (s.fees + s.costToEmpty)⟩,
  ⟨"min_input_set_size",
    fun s => optional toString s.inputCounts.toList.min?⟩,
  ⟨"max_input_set_size",
    fun s => optional toString s.inputCounts.toList.max?⟩,
  ⟨"mean_input_set_size",
    fun s => Decimal.tableText (spread s.inputCounts).1⟩,
  ⟨"std_dev_of_input_set_size",
    fun s => optional Decimal.tableText (spread s.inputCounts).2⟩,
  ⟨"usage", fun s => s.usage.text⟩]

end Statistics

end ExactSpend
