import ExactSpend.Deadline
import ExactSpend.Wallet

/-!
# Choosing coins

A payment is made without change if some subset found by the searches meets
the target within the tolerance.  Otherwise the largest coins are taken until
the target and a change output are covered.
-/

namespace ExactSpend

/-- The coins chosen for a payment. -/
structure Choice where
  funding : Funding
  serials : List Nat
  change : Option Nat
  overpayment : Option Int
deriving DecidableEq, Repr

namespace Wallet

/-- The effective value of the coins with one of some serial numbers. -/
def worth (w : Wallet) (rate : FeeRate) (serials : List Nat) : Int :=
  Signed.total ((w.split serials).1.map (·.coin.effectiveValue rate))

/-- The subsets that exceed the target by at most the tolerance, each with its
excess. -/
def withinTolerance (w : Wallet) (rate : FeeRate) (target tolerance : Int)
    (subsets : List (List Nat)) : List (List Nat × Int) :=
  (subsets.map fun serials => (serials, w.worth rate serials - target)).filter
    fun (_, excess) => 0 ≤ excess ∧ excess ≤ tolerance

/-- Fewer coins are better, then a smaller excess. -/
def isBetter (a b : List Nat × Int) : Bool :=
  a.1.length < b.1.length ∨ a.1.length = b.1.length ∧ a.2 < b.2

/-- The first of the best subsets. -/
def best? : List (List Nat × Int) → Option (List Nat × Int)
  | [] => none
  | a :: rest =>
      some (rest.foldl (fun best b => if isBetter b best then b else best) a)

/-- The choice of a subset that needs no change. -/
def changeless? (w : Wallet) (rate : FeeRate) (target tolerance : Int)
    (subsets : List (List Nat)) : Option Choice :=
  (best? (w.withinTolerance rate target tolerance subsets)).map
    fun (serials, excess) => ⟨.changeless, serials, none, some excess⟩

/-- Takes coins from a list until their value reaches the goal or no more
coins are allowed, and gives the serial numbers taken and their value. -/
def takeUntil (goal : Int) :
    (slots : Nat) → (value : Int) → List (Nat × Int) → List Nat × Int
  | 0, value, _ => ([], value)
  | _, value, [] => ([], value)
  | slots + 1, value, (serial, worth) :: rest =>
    if goal ≤ value then ([], value)
    else
      let (serials, value) := takeUntil goal slots (value + worth) rest
      (serial :: serials, value)

/-- The coins worth more than their spend fee with their effective values, the
largest first and equal ones in their order. -/
def largest (w : Wallet) (rate : FeeRate) : List (Nat × Int) :=
  ((w.coins.map fun c => (c.serial, c.coin.effectiveValue rate)).filter
    (0 < ·.2)).mergeSort fun a b => decide (b.2 ≤ a.2)

/-- The choice of the largest coins.  What exceeds the target and the change
output becomes change unless it is dust. -/
def largestFirst? (w : Wallet) (rate : FeeRate) (target : Int) :
    Option Choice :=
  let cost : Int := changeOutputCost rate
  let (serials, value) :=
    takeUntil (target + cost) w.rules.inputLimit 0 (w.largest rate)
  if value < target then none
  else
    let rest := value - target - cost
    let change :=
      if 0 ≤ rest ∧ (w.rules.dustLimit : Int) ≤ rest then some rest.toNat
      else none
    some ⟨.largestFirst, serials, change, none⟩

/-- A choice without change if there is one, else the largest coins. -/
def choose? (w : Wallet) (rate : FeeRate) (target tolerance : Int)
    (subsets : List (List Nat)) :
    Option Choice :=
  w.changeless? rate target tolerance subsets <|> w.largestFirst? rate target

end Wallet

end ExactSpend
