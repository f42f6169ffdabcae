import ExactSpend.Bounded
import ExactSpend.Single

/-!
# Fee rates

A fee rate counts satoshis per thousand weight units; four weight units make
one virtual byte.  A fee is rounded up to the next satoshi.
-/

namespace ExactSpend

/-- Satoshis per thousand weight units. -/
structure FeeRate where
  perKiloWeight : Nat
deriving DecidableEq, Repr

namespace FeeRate

/-- The rate of some satoshis per virtual byte, if it fits an unsigned word. -/
def perVirtualByte? (n : Nat) : Option FeeRate :=
  if n * 250 ≤ unsignedMax then some ⟨n * 250⟩ else none

/-- The fee for a virtual size: weight times rate, rounded up to the next
satoshi, with every intermediate result kept within an unsigned word. -/
def fee (rate : FeeRate) (size : Nat) : Nat :=
  Unsigned.add (Unsigned.mul rate.perKiloWeight (Unsigned.mul size 4)) 999 /
    1000

/-- A rate in bitcoin per thousand virtual bytes, rounded to satoshis per
thousand weight units, a half away from zero; it is never negative. -/
def ofBitcoin (rate : Float32) : FeeRate :=
  ⟨(rate.toFloat * 1e8 / 4.0).round.toUInt64.toNat⟩

/-- The rate in satoshis per virtual byte. -/
def perVirtualByte (rate : FeeRate) : Float32 :=
  Single.ofCount rate.perKiloWeight * 4 / 1000

end FeeRate

end ExactSpend
