/-!
# Ways to fund a payment

A payment is paid without change, paid with the largest coins first, or not
paid at all.  The three ways are listed in this order wherever they are counted.
-/

namespace ExactSpend

/-- How a payment was funded. -/
inductive Funding
  | changeless
  | largestFirst
  | failed
deriving DecidableEq, Repr

namespace Funding

/-- The word for the way. -/
def name : Funding → String
  | changeless => "changeless"
  | largestFirst => "largest_first"
  | failed => "failed"

/-- All ways in their order. -/
def all : List Funding :=
  [changeless, largestFirst, failed]

end Funding

end ExactSpend
