/-!
# Sides and settings

A search approaches its target from one of two sides: sums at or slightly
above it, or sums at or slightly below it.  The settings say how far a search
may go, which groups of coins are worth one, and how far from the target a sum
may lie and still count.
-/

namespace ExactSpend

/-- The side of the target on which sums are wanted. -/
inductive Side
  | more
  | less
deriving DecidableEq, Repr

/-- The word for the side. -/
def Side.name : Side → String
  | .more => "more"
  | .less => "less"

/-- The choices that every search of a plan shares. -/
structure Settings where
  /-- A group of coins with one script is searched only if its total exceeds
  this share of the target. -/
  groupUsefulnessPercent : Nat := 75
  /-- The number of iterations after which a search gives up. -/
  maxIterations : Nat := 100000
  /-- The number of iterations between two looks at the cancellation signal. -/
  checkInterval : Nat := 1024
  /-- The excess over the target that still counts as a match.  Without one a
  search accepts none, and a wallet accepts the cost of a change output. -/
  moreTolerance : Option Nat := none
  /-- The shortfall below the target that still counts as a match. -/
  lessTolerance : Nat := 0
  /-- The upper bound of fallback sums above the target, as a share of it. -/
  maxOverpaymentPercent : Nat := 125
  /-- The lower bound of fallback sums below the target, as a share of it. -/
  minPaymentPercent : Nat := 75
deriving DecidableEq, Repr

namespace Settings

/-- The share of the target that bounds fallback sums on a side. -/
def fallbackPercent (s : Settings) : Side → Nat
  | .more => s.maxOverpaymentPercent
  | .less => s.minPaymentPercent

/-- A group is worth a search if its total exceeds the configured share of a
target that is not negative. -/
def isWorthwhile (s : Settings) (total : Nat) (target : Int) : Bool :=
  0 ≤ target ∧ target * s.groupUsefulnessPercent < (total : Int) * 100

end Settings

end ExactSpend
