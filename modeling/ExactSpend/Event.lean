import ExactSpend.Script
import ExactSpend.Search

/-!
# Search events

A search runs over the coins of one script or over all coins, and it can be
told apart from the others by its label.  While it runs it reports when it is
sent off, when it was stopped before it was done, and how it finished.
-/

namespace ExactSpend

/-- The coins that a search runs over. -/
inductive Group
  | script (script : Script)
  | allCoins
deriving DecidableEq, Repr

/-- The name of a group in messages. -/
def Group.text : Group → String
  | script s => "script " ++ s.hex
  | allCoins => "all coins"

/-- What tells a search from the others. -/
structure Label where
  group : Group
  side : Side
  /-- The number of candidates in the search's pool. -/
  candidates : Nat
deriving DecidableEq, Repr

/-- What a search reports while it runs. -/
inductive Event
  | dispatched (label : Label)
  | cancelled (label : Label) (iterations : Nat)
  | budgetSpent (label : Label) (iterations : Nat)
  | finished (label : Label) (outcome : Outcome)
deriving DecidableEq, Repr

namespace Report

/-- The event of a search that stopped before it was done. -/
def interruption? (r : Report) (label : Label) : Option Event :=
  match r.ending with
  | .cancelled => some (.cancelled label r.iterations)
  | .budgetSpent => some (.budgetSpent label r.iterations)
  | .matched | .exhausted => none

/-- Everything a search reports once it runs, in order. -/
def events (r : Report) (label : Label) : List Event :=
  (r.interruption? label).toList ++ [.finished label r.outcome]

end Report

end ExactSpend
