import ExactSpend.Amount
import ExactSpend.Coin
import ExactSpend.Notice
import ExactSpend.Record
import ExactSpend.Scenario

/-!
# Payers

A payer takes deposits and funds payments.  A replay asks no more of it than
this module says, so what holds of replays holds whatever coins the payer
chooses to spend.
-/

namespace ExactSpend

/-- A deposit that was refused, with the reason. -/
structure DepositFault where
  amount : Float
  cause : Amount.Fault

/-- The report of a refused deposit. -/
def DepositFault.message (f : DepositFault) : String :=
  "invalid deposit amount " ++ Decimal.plainText f.amount ++ ": " ++
    f.cause.message

/-- A payer's state after an attempt to pay, the record of the attempt, and
what there is to tell. -/
structure Withdrawal (σ : Type) where
  state : σ
  record : PaymentRecord
  notices : List Notice

/-- What a payer with states in `σ` can do. -/
structure Payer (σ : Type) where
  /-- The amounts of the coins held. -/
  amounts : σ → List Nat
  /-- Takes a deposit. -/
  deposit : σ → ScenarioRow → Except DepositFault σ
  /-- Tries to pay all of some payments at once, at a rate in bitcoin per
  thousand virtual bytes. -/
  withdraw : σ → List Payment → Float32 → Withdrawal σ

end ExactSpend
