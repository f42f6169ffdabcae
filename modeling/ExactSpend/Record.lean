import ExactSpend.Decimal.Writer
import ExactSpend.Funding
import ExactSpend.Table.Writer

/-!
# Payment records

A payment record tells how one attempt to pay went.  Most of it is absent when
the attempt failed.
-/

namespace ExactSpend

/-- The outcome of one attempt to pay. -/
structure PaymentRecord where
  id : Nat := 0
  amount : Nat := 0
  fee : Option Int := none
  /-- The fee rate asked for, in satoshis per virtual byte. -/
  targetRate : Float32 := 0
  /-- The fee divided by the size of the transaction. -/
  realRate : Option Float32 := none
  funding : Funding := .failed
  /-- The amounts of the coins spent. -/
  inputs : List Nat := []
  /-- The number of coins spent that cost more than they are worth. -/
  negativeInputs : Option Nat := none
  outputs : Option Nat := none
  change : Option Nat := none
  coinsBefore : Nat := 0
  coinsAfter : Nat := 0
  /-- The number of subsets found that could pay without change. -/
  subsets : Nat := 0
  /-- The effective value spent beyond the target without change. -/
  overpayment : Option Int := none
  /-- The cost of spending all coins at the long-term fee rate, before the
  payment. -/
  costToEmpty : Float32 := 0
  /-- The total of all coins before the payment. -/
  balance : Nat := 0

namespace PaymentRecord

open Table

/-- The columns of a table of payment records. -/
def columns : List (Column PaymentRecord) := [
  ⟨"id", fun r => toString r.id⟩,
  ⟨"amount", fun r => toString r.amount⟩,
  ⟨"fee", fun r => optional toString r.fee⟩,
  ⟨"target_feerate", fun r => Decimal.tableText r.targetRate⟩,
  ⟨"real_feerate", fun r => optional Decimal.tableText r.realRate⟩,
  ⟨"algorithm", fun r => r.funding.name⟩,
  ⟨"input_count",
    fun r => if r.inputs.isEmpty then "" else toString r.inputs.length⟩,
  ⟨"negative_effective_valued_inputs",
    fun r => optional toString r.negativeInputs⟩,
  ⟨"output_count", fun r => optional toString r.outputs⟩,
  ⟨"change_amount", fun r => optional toString r.change⟩,
  ⟨"utxo_count_before_payment", fun r => toString r.coinsBefore⟩,
  ⟨"utxo_count_after_payment", fun r => toString r.coinsAfter⟩,
  ⟨"changeless_candidates", fun r => toString r.subsets⟩,
  ⟨"overpayment", fun r => optional toString r.overpayment⟩]

end PaymentRecord

end ExactSpend
