import ExactSpend.Payer
import ExactSpend.Settings
import ExactSpend.Single

/-!
# Wallets

A wallet holds coins, each known by the number under which it was received.
Deposits and change outputs add coins at the end; a withdrawal removes the
coins it spends and keeps the others in order.
-/

namespace ExactSpend

/-- A coin of a wallet with the number under which it was received. -/
structure OwnedCoin where
  serial : Nat
  coin : Coin
deriving DecidableEq, Repr

/-- What a wallet does not change by itself. -/
structure WalletRules where
  settings : Settings := {}
  /-- The fee rate expected for spending coins in the future. -/
  longTermRate : FeeRate
  /-- Change below this amount is left to the fee. -/
  dustLimit : Nat
  inputLimit : Nat
  /-- How long a payment may search for subsets without change, in
  milliseconds. -/
  timeout : Nat
  /-- The number of scripts that deposits cycle through; zero for a fresh
  script per deposit. -/
  addressReuse : Nat := 0
deriving DecidableEq, Repr

/-- The coins of a wallet and the number of coins ever received. -/
structure Wallet where
  rules : WalletRules
  coins : List OwnedCoin := []
  received : Nat := 0
deriving DecidableEq, Repr

namespace Wallet

/-- The tag of the scripts that deposits pay to. -/
def depositTag : UInt8 := 1

/-- The tag of the scripts that change pays to. -/
def changeTag : UInt8 := 2

/-- The amounts of the coins. -/
def amounts (w : Wallet) : List Nat :=
  w.coins.map (·.coin.amount)

/-- The total of the coins. -/
def balance (w : Wallet) : Nat :=
  Unsigned.total w.amounts

/-- Adds a coin. -/
def receive (w : Wallet) (amount : Nat) (script : Script) : Wallet :=
  { w with
    coins := w.coins ++ [⟨w.received, .ofScript amount script⟩]
    received := w.received + 1 }

/-- The script of the next deposit. -/
def depositScript (w : Wallet) : Script :=
  Script.numbered depositTag <|
    if w.rules.addressReuse = 0 then w.received
    else w.received % w.rules.addressReuse

/-- The script of the next change output. -/
def changeScript (w : Wallet) : Script :=
  Script.numbered changeTag w.received

/-- Receives an amount of bitcoin. -/
def deposit (w : Wallet) (amount : Float) : Except DepositFault Wallet :=
  match Amount.ofBitcoin amount with
  | .ok satoshis => .ok (w.receive satoshis w.depositScript)
  | .error cause => .error ⟨amount, cause⟩

/-- The cost of spending every coin at the long-term fee rate. -/
def costToEmpty (w : Wallet) : Float32 :=
  Single.total (w.coins.map fun c =>
    Single.ofCount (c.coin.inputCost w.rules.longTermRate))

/-- The fee for a change output now. -/
def changeOutputCost (rate : FeeRate) : Nat :=
  (Script.numbered changeTag 0).outputCost rate

/-- The fee for a change output now and for spending it at the long-term
rate. -/
def costOfChange (w : Wallet) (rate : FeeRate) : Nat :=
  changeOutputCost rate +
    w.rules.longTermRate.fee (Script.numbered changeTag 0).inputSize

/-- The coins with one of some serial numbers and all others, each in order. -/
def split (w : Wallet) (serials : List Nat) : List OwnedCoin × List OwnedCoin :=
  w.coins.partition fun c => serials.contains c.serial

end Wallet

end ExactSpend
