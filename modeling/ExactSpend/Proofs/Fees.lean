import ExactSpend.Coin
import Mathlib.Algebra.Order.Ring.Int
import Mathlib.Data.Rat.Floor

/-!
# Fees of parts and of the whole

A fee meets the ceiling three times on its way, but all that remains of this is
one `min`.  Rounding up and the ceiling both make the parts of a transaction
dearer than the whole, so what pays for every part pays for the transaction.
Neither of them turns a lower rate into a higher fee, so at a lower rate coins
are worth no less and a payment needs no more.  Where the ceiling is not met,
rounding up is all that sets the parts and the whole apart, and it costs less
than one satoshi a part.
-/

namespace ExactSpend

theorem Unsigned.mul_mul (a b c : ℕ) :
    mul a (mul b c) = min (a * (b * c)) unsignedMax := by
  rw [mul, mul]
  rcases Nat.eq_zero_or_pos a with rfl | ha
  · rw [Nat.zero_mul, Nat.zero_mul]
  · rcases le_total (b * c) unsignedMax with hle | hle
    · rw [min_eq_left hle]
    · have hceiling : unsignedMax ≤ a * unsignedMax :=
        Nat.le_mul_of_pos_left _ ha
      have hproduct : a * unsignedMax ≤ a * (b * c) := Nat.mul_le_mul_left a hle
      rw [min_eq_right hle, min_eq_right hceiling,
        min_eq_right (hceiling.trans hproduct)]

namespace FeeRate

variable {rate : FeeRate}

theorem fee_eq (rate : FeeRate) (size : ℕ) :
    rate.fee size = min (rate.perKiloWeight * (size * 4) + 999)
      unsignedMax / 1000 := by
  rw [fee, Unsigned.mul_mul, Unsigned.add, unsignedMax]
  omega

@[simp] theorem fee_zero (rate : FeeRate) : rate.fee 0 = 0 := by
  rw [fee_eq, Nat.zero_mul, Nat.mul_zero]
  rfl

/-- A fee is far below the ceiling of signed amounts. -/
theorem fee_le (rate : FeeRate) (size : ℕ) :
    (rate.fee size : ℤ) ≤ signedMax := by
  have hle : rate.fee size ≤ unsignedMax / 1000 := by
    rw [fee_eq]
    exact Nat.div_le_div_right (min_le_right _ _)
  have hmax : ((unsignedMax / 1000 : ℕ) : ℤ) ≤ signedMax := by decide
  omega

theorem fee_add_le (rate : FeeRate) (a b : ℕ) :
    rate.fee (a + b) ≤ rate.fee a + rate.fee b := by
  rw [fee_eq, fee_eq, fee_eq, Nat.add_mul, Nat.mul_add]
  generalize rate.perKiloWeight * (a * 4) = x
  generalize rate.perKiloWeight * (b * 4) = y
  rw [unsignedMax]
  omega

theorem fee_total_le (rate : FeeRate) (sizes : List ℕ) :
    rate.fee (Unsigned.total sizes) ≤ Unsigned.total (sizes.map rate.fee) := by
  induction sizes with
  | nil => exact le_of_eq rate.fee_zero
  | cons size sizes ih =>
      rw [Unsigned.total_cons, List.map_cons, Unsigned.total_cons]
      exact (rate.fee_add_le size _).trans (Nat.add_le_add_left ih _)

/-- A larger size at a higher rate costs no less. -/
theorem fee_mono {rate' : FeeRate}
    (hrate : rate'.perKiloWeight ≤ rate.perKiloWeight) {size' size : ℕ}
    (hsize : size' ≤ size) : rate'.fee size' ≤ rate.fee size := by
  rw [fee_eq, fee_eq]
  apply Nat.div_le_div_right
  apply min_le_min_right
  apply Nat.add_le_add_right
  exact Nat.mul_le_mul hrate (Nat.mul_le_mul_right 4 hsize)

/-! ## Rounding -/

/-- Four weight units make a virtual byte, so below the ceiling this is the
charge. -/
theorem fee_of_le {size : ℕ}
    (h : 4 * rate.perKiloWeight * size + 999 ≤ unsignedMax) :
    rate.fee size = (4 * rate.perKiloWeight * size + 999) / 1000 := by
  have hcharge :
      rate.perKiloWeight * (size * 4) = 4 * rate.perKiloWeight * size := by ring
  rw [fee_eq, hcharge, min_eq_left h]

/-- Below the ceiling a fee is the exact charge, rounded up. -/
theorem fee_eq_ceil {size : ℕ}
    (h : 4 * rate.perKiloWeight * size + 999 ≤ unsignedMax) :
    (rate.fee size : ℤ) =
      ⌈((4 * rate.perKiloWeight * size : ℕ) : ℚ) / 1000⌉ := by
  have hceil :=
    Rat.ceil_natCast_div_natCast (4 * rate.perKiloWeight * size) 1000
  rw [fee_of_le h]
  push_cast at hceil ⊢
  omega

/-- Below the ceiling two parts are dearer than the whole by at most one
satoshi. -/
theorem fee_add_fee_le {a b : ℕ}
    (h : 4 * rate.perKiloWeight * (a + b) + 999 ≤ unsignedMax) :
    rate.fee a + rate.fee b ≤ rate.fee (a + b) + 1 := by
  have hsplit := Nat.mul_add (4 * rate.perKiloWeight) a b
  rw [fee_of_le h, fee_of_le (by omega), fee_of_le (by omega)]
  omega

/-- Of several parts every one after the first adds at most one satoshi. -/
theorem total_fee_cons_le (sizes : List ℕ) : ∀ {size : ℕ},
    4 * rate.perKiloWeight * Unsigned.total (size :: sizes) + 999 ≤
        unsignedMax →
      Unsigned.total ((size :: sizes).map rate.fee) ≤
        rate.fee (Unsigned.total (size :: sizes)) + sizes.length := by
  induction sizes with
  | nil => exact fun _ => le_rfl
  | cons next sizes ih =>
      intro size h
      have hrest :
          4 * rate.perKiloWeight * Unsigned.total (next :: sizes) + 999 ≤
          unsignedMax := by
        rw [Unsigned.total_cons, Nat.mul_add] at h
        omega
      have hparts := ih hrest
      have hpair : rate.fee size + rate.fee (Unsigned.total (next :: sizes)) ≤
          rate.fee (Unsigned.total (size :: next :: sizes)) + 1 :=
            fee_add_fee_le h
      simp only [List.map_cons, Unsigned.total_cons, List.length_cons] at *
      omega

/-- A fee grows with the rate and with the size, and the whole costs no more
than its parts, also where the ceiling is met on the way.  Below the ceiling
every fee is the exact charge rounded up, and each part after the first makes
the parts together dearer than the whole by at most one satoshi. -/
theorem fee_of_parts (rate : FeeRate) (sizes : List ℕ) :
    (∀ (rate' : FeeRate) (size size' : ℕ),
      rate.perKiloWeight ≤ rate'.perKiloWeight →
        size ≤ size' → rate.fee size ≤ rate'.fee size') ∧
      rate.fee (Unsigned.total sizes) ≤ Unsigned.total (sizes.map rate.fee) ∧
      (4 * rate.perKiloWeight * Unsigned.total sizes + 999 ≤ unsignedMax →
        (∀ size ≤ Unsigned.total sizes,
          (rate.fee size : ℤ) =
            ⌈((4 * rate.perKiloWeight * size : ℕ) : ℚ) / 1000⌉) ∧
        Unsigned.total (sizes.map rate.fee) ≤
          rate.fee (Unsigned.total sizes) + (sizes.length - 1)) := by
  refine ⟨fun _ _ _ hrate => fee_mono hrate, rate.fee_total_le sizes,
    fun h => ⟨?_, ?_⟩⟩
  · intro size hsize
    have hcharge := Nat.mul_le_mul_left (4 * rate.perKiloWeight) hsize
    exact fee_eq_ceil (by omega)
  · cases sizes with
    | nil => exact Nat.zero_le _
    | cons size sizes => exact total_fee_cons_le sizes h

/-- At one satoshi per thousand weight units each part of a small transaction
costs a whole satoshi, and so does the transaction. -/
theorem fee_of_four_parts :
    4 * (⟨1⟩ : FeeRate).perKiloWeight * Unsigned.total [11, 68, 68, 31] + 999 ≤
        unsignedMax ∧
      Unsigned.total ([11, 68, 68, 31].map (⟨1⟩ : FeeRate).fee) = 4 ∧
      4 ≤ (⟨1⟩ : FeeRate).fee (Unsigned.total [11, 68, 68, 31]) + 3 := by
  have hfits : 4 * (⟨1⟩ : FeeRate).perKiloWeight *
      Unsigned.total [11, 68, 68, 31] + 999 ≤
      unsignedMax := by decide
  have hparts : Unsigned.total ([11, 68, 68, 31].map (⟨1⟩ : FeeRate).fee) =
      4 := by decide
  refine ⟨hfits, hparts, ?_⟩
  rw [← hparts]
  exact ((fee_of_parts ⟨1⟩ [11, 68, 68, 31]).2.2 hfits).2

end FeeRate

/-! ## Coins and payments at a rate -/

namespace Coin

theorem ofCount_inputCost (c : Coin) (rate : FeeRate) :
    Signed.ofCount (c.inputCost rate) = c.inputCost rate :=
  min_eq_left (rate.fee_le c.inputSize)

theorem effectiveValue_add_inputCost {c : Coin} (h : (c.amount : ℤ) ≤ signedMax)
    (rate : FeeRate) : c.effectiveValue rate + c.inputCost rate = c.amount := by
  rw [effectiveValue, ofCount_inputCost, Signed.ofCount, min_eq_left h]
  exact Int.sub_add_cancel _ _

variable {rate rate' : FeeRate}

theorem effectiveValue_anti
    (hrate : rate'.perKiloWeight ≤ rate.perKiloWeight) (c : Coin) :
    c.effectiveValue rate ≤ c.effectiveValue rate' :=
  Int.sub_le_sub_left (Signed.ofCount_mono (FeeRate.fee_mono hrate le_rfl)) _

end Coin

theorem Script.outputCost_mono {rate rate' : FeeRate}
    (hrate : rate'.perKiloWeight ≤ rate.perKiloWeight) (s : Script) :
    s.outputCost rate' ≤ s.outputCost rate :=
  FeeRate.fee_mono hrate le_rfl

end ExactSpend
