/-!
# Single-precision quantities

Fee rates and summary figures are single-precision numbers: every operation
rounds its result, and sums are formed from left to right.
-/

namespace ExactSpend.Single

/-- The number nearest to a count. -/
def ofCount (n : Nat) : Float32 :=
  (UInt64.ofNat n).toFloat32

/-- The number nearest to a signed amount. -/
def ofAmount (n : Int) : Float32 :=
  (Int64.ofInt n).toFloat32

/-- Negative zero, which leaves every number as it is when it is added. -/
def negativeZero : Float32 :=
  Float32.ofBits 0x80000000

/-- The sum of a list, negative zero if it is empty. -/
def total (xs : List Float32) : Float32 :=
  xs.foldl (· + ·) negativeZero

/-- The sum of a list divided by its length, where the sum starts at zero. -/
def mean (xs : List Float32) : Float32 :=
  xs.foldl (· + ·) 0 / ofCount xs.length

/-- The standard deviation of a sample: the squared distances from the mean
are divided by one less than their number. -/
def deviation (xs : List Float32) : Float32 :=
  let middle := mean xs
  let squares := xs.foldl (fun sum x => sum + (x - middle) * (x - middle)) 0
  (squares / (ofCount xs.length - 1)).sqrt

/-- The mean and the standard deviation of a list.  Without values the mean is
zero, and fewer than two values have no deviation. -/
def summary : List Float32 → Float32 × Option Float32
  | [] => (0, none)
  | [x] => (x, none)
  | xs => (mean xs, some (deviation xs))

end ExactSpend.Single
