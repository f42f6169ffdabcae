import ExactSpend.FeeRate
import ExactSpend.Script

/-!
# Coins and payments

At a fee rate a coin is worth its amount less the fee for spending it, and a
payment needs its amount plus the fee for its output.  A set of coins pays
without change when its effective values meet the payment's target.
-/

namespace ExactSpend

/-- A spendable output with the virtual size of an input that spends it. -/
structure Coin where
  amount : Nat
  script : Script
  inputSize : Nat
deriving DecidableEq, Repr

/-- An output to be paid. -/
structure Payment where
  amount : Nat
  script : Script
deriving DecidableEq, Repr

/-- The fee for paying to a script. -/
def Script.outputCost (s : Script) (rate : FeeRate) : Nat :=
  rate.fee s.outputSize

namespace Coin

/-- A coin whose spend size is guessed from its script. -/
def ofScript (amount : Nat) (script : Script) : Coin :=
  ⟨amount, script, script.inputSize⟩

/-- The fee for spending the coin. -/
def inputCost (c : Coin) (rate : FeeRate) : Nat :=
  rate.fee c.inputSize

/-- The amount less the fee for spending the coin, negative when the coin is
worth less than that fee.  Both terms lie between zero and `signedMax`, so
their difference needs no bound. -/
def effectiveValue (c : Coin) (rate : FeeRate) : Int :=
  Signed.ofCount c.amount - Signed.ofCount (c.inputCost rate)

theorem effectiveValue_le (c : Coin) (rate : FeeRate) :
    c.effectiveValue rate ≤ signedMax := by
  have := Signed.ofCount_le c.amount
  have := Signed.ofCount_nonneg (c.inputCost rate)
  unfold effectiveValue
  omega

theorem effectiveValue_le_amount (c : Coin) (rate : FeeRate) :
    c.effectiveValue rate ≤ c.amount := by
  have := Signed.ofCount_nonneg (c.inputCost rate)
  unfold effectiveValue
  rw [Signed.ofCount]
  omega

end Coin

/-- The effective value that funds the payment without change. -/
def Payment.target (p : Payment) (rate : FeeRate) : Int :=
  Signed.add (Signed.ofCount p.amount)
    (Signed.ofCount (p.script.outputCost rate))

theorem Payment.target_le (p : Payment) (rate : FeeRate) :
    p.target rate ≤ signedMax := by
  unfold target Signed.add
  omega

end ExactSpend
