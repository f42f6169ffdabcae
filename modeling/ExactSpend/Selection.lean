import ExactSpend.Bounded
import ExactSpend.Pool

/-!
# Selections

A selection is a list of positions of a pool together with what follows from
it: the values taken, their sum and the cost of spending them.
-/

namespace ExactSpend

/-- Positions of a pool with their values, the sum of these and the total
cost. -/
structure Selection where
  positions : List Nat
  values : List Int
  sum : Int
  cost : Int
deriving DecidableEq, Repr

namespace Selection

/-- The selection of some positions, in the order given. -/
def ofPositions (pool : Pool) (positions : List Nat) : Selection where
  positions
  values := positions.map pool.value
  sum := Signed.total (positions.map pool.value)
  cost := Signed.total (positions.map pool.cost)

/-- The number of inputs. -/
def size (s : Selection) : Nat :=
  s.positions.length

/-- A selection without inputs. -/
def isEmpty (s : Selection) : Bool :=
  s.positions.isEmpty

end Selection

end ExactSpend
