/-!
# Amounts with a ceiling

Amounts, sizes and fees are counts that fit an unsigned word; differences of
amounts fit a signed one.  A capped operation whose exact result lies above the
word gives the largest value of the word instead.  Where a count has to be read
as a signed word, `Signed.ofWord` says so, and running totals, which have no
cap, wrap around.  Everything is computed on `Nat` and `Int`, so a bound is
always the visible `min` or remainder of an exact result.
-/

namespace ExactSpend

/-- The largest unsigned amount. -/
def unsignedMax : Nat := 18446744073709551615

/-- The largest signed amount. -/
def signedMax : Int := 9223372036854775807

namespace Unsigned

/-- The sum of two counts, at most `unsignedMax`. -/
def add (a b : Nat) : Nat :=
  min (a + b) unsignedMax

/-- The product of two counts, at most `unsignedMax`. -/
def mul (a b : Nat) : Nat :=
  min (a * b) unsignedMax

/-- A count with no more of it than its word holds. -/
def wrap (n : Nat) : Nat :=
  n % 18446744073709551616

/-- The total of some counts, without a ceiling. -/
def total (counts : List Nat) : Nat :=
  counts.foldr (· + ·) 0

@[simp] theorem total_nil : total [] = 0 := rfl

@[simp] theorem total_cons (n : Nat) (counts : List Nat) :
    total (n :: counts) = n + total counts := rfl

@[simp] theorem total_append (xs ys : List Nat) :
    total (xs ++ ys) = total xs + total ys := by
  induction xs with
  | nil => simp
  | cons x xs ih => simp [ih, Nat.add_assoc]

@[simp] theorem wrap_wrap_add (a b : Nat) : wrap (wrap a + b) = wrap (a + b) :=
  Nat.mod_add_mod _ _ _

theorem wrap_of_le {n : Nat} (h : n ≤ unsignedMax) : wrap n = n :=
  Nat.mod_eq_of_lt (Nat.lt_succ_of_le h)

end Unsigned

namespace Signed

/-- A count as a signed amount, at most `signedMax`. -/
def ofCount (n : Nat) : Int :=
  min (n : Int) signedMax

/-- The signed amount whose word has the bits of a count's word.  A count up to
`signedMax` is the amount itself; above it the amount is negative. -/
def ofWord (n : Nat) : Int :=
  if (n : Int) ≤ signedMax then n else (n : Int) - 18446744073709551616

/-- The signed amount that a word shows when an amount beyond its range has
wrapped around. -/
def wrap (a : Int) : Int :=
  a.bmod 18446744073709551616

/-- The sum of two signed amounts, at most `signedMax`.  Only sums of
non-negative amounts are formed, so there is no bound below. -/
def add (a b : Int) : Int :=
  min (a + b) signedMax

/-- The total of some signed amounts, without a ceiling. -/
def total (amounts : List Int) : Int :=
  amounts.foldr (· + ·) 0

@[simp] theorem total_nil : total [] = 0 := rfl

@[simp] theorem total_cons (a : Int) (amounts : List Int) :
    total (a :: amounts) = a + total amounts := rfl

@[simp] theorem total_append (xs ys : List Int) :
    total (xs ++ ys) = total xs + total ys := by
  induction xs with
  | nil => simp
  | cons x xs ih => simp [ih, Int.add_assoc]

@[simp] theorem wrap_wrap_add (a b : Int) : wrap (wrap a + b) = wrap (a + b) :=
  Int.bmod_add_bmod

theorem wrap_of_mem {a : Int} (hmin : -signedMax - 1 ≤ a)
    (hmax : a ≤ signedMax) :
    wrap a = a := by
  unfold signedMax at hmin hmax
  exact Int.bmod_eq_of_le (by omega) (by omega)

theorem ofCount_nonneg (n : Nat) : 0 ≤ ofCount n := by
  unfold ofCount signedMax
  omega

theorem ofCount_le (n : Nat) : ofCount n ≤ signedMax := by
  unfold ofCount
  omega

theorem ofCount_mono {m n : Nat} (h : m ≤ n) : ofCount m ≤ ofCount n := by
  unfold ofCount
  omega

theorem add_mono {a b c d : Int} (hac : a ≤ c) (hbd : b ≤ d) :
    add a b ≤ add c d := by
  unfold add
  omega

@[simp] theorem ofWord_of_le {n : Nat}
    (h : (n : Int) ≤ signedMax) : ofWord n = n :=
  if_pos h

theorem add_eq_of_le {a b : Int} (h : a + b ≤ signedMax) : add a b = a + b := by
  unfold add
  omega

/-- Below the ceiling a capped sum compares like the exact one. -/
theorem le_add_iff {a b c : Int} (h : c ≤ signedMax) :
    c ≤ add a b ↔ c ≤ a + b := by
  unfold add
  omega

end Signed

end ExactSpend
