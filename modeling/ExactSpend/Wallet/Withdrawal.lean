import ExactSpend.Wallet.Choice

/-!
# Withdrawals

A withdrawal pays a list of payments with one transaction.  Further recipients
and the overhead of the transaction are folded into the amount of the first
payment, so that one target tells what the coins must be worth.
-/

namespace ExactSpend

/-- The virtual size of a transaction without its inputs and outputs. -/
def overheadSize : Nat := 11

namespace Wallet

/-- The fees of all outputs but the first and of the overhead. -/
def extraFees (payments : List Payment) (rate : FeeRate) : Nat :=
  Unsigned.total (payments.tail.map (·.script.outputCost rate)) +
    rate.fee overheadSize

/-- The one payment that stands for several. -/
def combined (first : Payment) (rest : List Payment) (rate : FeeRate) :
    Payment :=
  ⟨Unsigned.total ((first :: rest).map (·.amount)) +
      extraFees (first :: rest) rate,
    first.script⟩

/-- The excess accepted without change. -/
def tolerance (w : Wallet) (rate : FeeRate) : Nat :=
  w.rules.settings.moreTolerance.getD (w.costOfChange rate)

/-- The search for subsets that fund a payment. -/
def request (w : Wallet) (payment : Payment) (rate : FeeRate) : Request where
  coins := (w.coins.map (·.coin)).toArray
  rate
  payment
  inputLimit := w.rules.inputLimit
  settings := { w.rules.settings with moreTolerance := some (w.tolerance rate) }

/-- The serial numbers of the coins at some indices. -/
def serialsAt (w : Wallet) (indices : List Nat) : List Nat :=
  let coins := w.coins.toArray
  indices.map fun i => (coins[i]?.map (·.serial)).getD 0

/-- The record of an attempt to pay, as it stands before coins are chosen. -/
def attempt (w : Wallet) (payments : List Payment) (rate : FeeRate) :
    PaymentRecord where
  amount := Unsigned.total (payments.map (·.amount))
  targetRate := rate.perVirtualByte
  coinsBefore := w.coins.length
  coinsAfter := w.coins.length
  costToEmpty := w.costToEmpty
  balance := w.balance

/-- Spends the coins chosen, receives the change and completes the record.  The
fee is what the coins are worth beyond the payments and the change, each of them
taken as a signed word. -/
def settle (w : Wallet) (payments : List Payment) (rate : FeeRate)
    (record : PaymentRecord) (choice : Choice) : Withdrawal Wallet :=
  let (spent, kept) := w.split choice.serials
  let rest : Wallet := { w with coins := kept }
  let after := match choice.change with
    | some change => rest.receive change w.changeScript
    | none => rest
  let change := choice.change.getD 0
  let scripts := payments.map (·.script)
    ++ if choice.change.isSome then [w.changeScript] else []
  let size := overheadSize + Unsigned.total (spent.map (·.coin.inputSize))
    + Unsigned.total (scripts.map (·.outputSize))
  let fee := Signed.ofWord (Unsigned.total (spent.map (·.coin.amount)))
    - Signed.ofWord record.amount - Signed.ofWord change
  { state := after
    record := { record with
      funding := choice.funding
      overpayment := choice.overpayment
      fee := some fee
      realRate := some (Single.ofAmount fee / Single.ofCount size)
      inputs := spent.map (·.coin.amount)
      negativeInputs :=
        some (spent.filter (·.coin.effectiveValue rate < 0)).length
      outputs := some scripts.length
      change := choice.change
      coinsAfter := after.coins.length }
    notices := [.paymentBuilt choice.funding spent.length fee change] }

/-- Pays some payments at a fee rate, where `deliver` tells which searches of
a plan end in time.  Nothing is spent when there is nothing to pay or when the
coins do not suffice. -/
def withdrawWith (deliver : List Task → Delivery) (w : Wallet)
    (payments : List Payment) (rate : FeeRate) : Withdrawal Wallet :=
  let record := w.attempt payments rate
  match payments with
  | [] => ⟨w, record, []⟩
  | first :: rest =>
    let payment := combined first rest rate
    let plan := (w.request payment rate).plan
    let delivery := deliver plan.tasks
    let subsets := (harvest delivery.arrivals).map w.serialsAt
    let record := { record with subsets := subsets.length }
    let searched := plan.notices
      ++ plan.tasks.map (fun t => .searchEvent (.dispatched t.label))
      ++ if delivery.isComplete then [] else [.timedOut subsets.length]
    match w.choose? rate (payment.target rate)
        (Signed.ofCount (w.tolerance rate)) subsets with
    | none => ⟨w, record, searched⟩
    | some choice =>
      let paid := w.settle payments rate record choice
      { paid with notices := searched ++ paid.notices }

/-- Pays some payments at a fee rate within the wallet's own deadline. -/
def withdraw (w : Wallet) (payments : List Payment) (rate : FeeRate) :
    Withdrawal Wallet :=
  w.withdrawWith
    (Deadline.deliver w.rules.settings.limits w.rules.timeout) payments rate

/-- A wallet as a payer. -/
def payer : Payer Wallet where
  amounts := amounts
  deposit w row := w.deposit row.amount
  withdraw w payments rate := w.withdraw payments (.ofBitcoin rate)

end Wallet

end ExactSpend
