import ExactSpend.Proofs.Fees
import ExactSpend.Proofs.Wallet.Sufficiency

/-!
# Payability

What one wallet can pay another one can pay too, when it has the same coins and
perhaps more, may spend as many at once and meets a rate that is no higher.  The
two need not agree on how they pay: coins that suffice in the one suffice in the
other, and where coins suffice no payment fails.
-/

namespace ExactSpend
namespace Wallet

variable {w w' : Wallet} {rate rate' : FeeRate} {picks : List OwnedCoin}

/-! ## Lower rates -/

theorem effective_anti (hrate : rate'.perKiloWeight ≤ rate.perKiloWeight)
    (picks : List OwnedCoin) : effective rate picks ≤ effective rate' picks :=
  List.sum_le_sum fun c _ => c.coin.effectiveValue_anti hrate

theorem extraFees_mono (hrate : rate'.perKiloWeight ≤ rate.perKiloWeight)
    (payments : List Payment) :
    extraFees payments rate' ≤ extraFees payments rate :=
  Nat.add_le_add (List.sum_le_sum fun p _ => p.script.outputCost_mono hrate)
    (FeeRate.fee_mono hrate le_rfl)

theorem target_combined_mono (hrate : rate'.perKiloWeight ≤ rate.perKiloWeight)
    (first : Payment) (rest : List Payment) :
    (combined first rest rate').target rate' ≤
    (combined first rest rate).target rate := by
  have hamount :
      (combined first rest rate').amount ≤ (combined first rest rate).amount :=
    Nat.add_le_add_left (extraFees_mono hrate (first :: rest)) _
  exact Signed.add_mono (Signed.ofCount_mono hamount)
    (Signed.ofCount_mono (first.script.outputCost_mono hrate))

/-! ## More coins -/

/-- Every coin of the first wallet is one of the second, under whatever
number. -/
def CoinsIn (w w' : Wallet) : Prop :=
  (w.coins.map (·.coin)).Subperm (w'.coins.map (·.coin))

theorem effective_eq_of_perm {picks' : List OwnedCoin}
    (h : (picks'.map (·.coin)).Perm (picks.map (·.coin))) (rate : FeeRate) :
    effective rate picks' = effective rate picks := by
  have hworths := Signed.total_perm (h.map (·.effectiveValue rate))
  rw [List.map_map, List.map_map] at hworths
  exact hworths

/-- Distinct coins of the first wallet stand for distinct coins of the
second. -/
theorem CoinsIn.exists_coins (h : w.CoinsIn w') (hw' : w'.WellNumbered)
    (hnodup : picks.Nodup) (hmem : ∀ c ∈ picks, c ∈ w.coins) :
    ∃ picks' : List OwnedCoin, picks'.Nodup ∧ (∀ c ∈ picks', c ∈ w'.coins) ∧
      (picks'.map (·.coin)).Perm (picks.map (·.coin)) := by
  obtain ⟨listed, hlisted, hkept⟩ := hnodup.subperm hmem
  have hpicks : (picks.map (·.coin)).Subperm (w.coins.map (·.coin)) :=
    ⟨listed.map (·.coin), hlisted.map _, hkept.map _⟩
  obtain ⟨coins, hperm, hsub⟩ := hpicks.trans h
  obtain ⟨picks', hsub', rfl⟩ := List.sublist_map_iff.mp hsub
  exact ⟨picks', hsub'.nodup hw'.coins_nodup,
    fun c hc => hsub'.subset hc, hperm⟩

/-- Where some coins suffice, their like suffice for a target that is no
higher. -/
theorem Suffices.exists_suffices {target target' : ℤ}
    (h : w.Suffices rate target picks)
    (hw' : w'.WellNumbered) (hcoins : w.CoinsIn w')
    (hlimit : w.rules.inputLimit ≤ w'.rules.inputLimit)
    (hrate : rate'.perKiloWeight ≤ rate.perKiloWeight)
    (htarget : target' ≤ target) :
    ∃ picks', w'.Suffices rate' target' picks' := by
  obtain ⟨picks', hnodup, hmem, hperm⟩ := hcoins.exists_coins hw' h.nodup h.mem
  refine ⟨picks', hnodup, hmem, ?_, ?_⟩
  · have hlength : picks'.length = picks.length := by
      simpa using hperm.length_eq
    rw [hlength]
    exact h.length_le.trans hlimit
  · calc target'
        ≤ target := htarget
      _ ≤ effective rate picks := h.target_le
      _ = effective rate picks' := (effective_eq_of_perm hperm rate).symm
      _ ≤ effective rate' picks' := effective_anti hrate picks'

/-- Let a second wallet have every coin of a first one and perhaps more, let it
be allowed as many inputs or more, and let it pay at a rate that is no higher.
If the first wallet does not fail to pay, the second one does not fail either,
whatever the budgets and the tolerances of the two are and however their
searches end.  Both number their coins apart, as all wallets do that deposits
and withdrawals lead to. -/
theorem withdrawWith_paid_mono (hw : w.WellNumbered) (hw' : w'.WellNumbered)
    (hcoins : w.CoinsIn w') (hlimit : w.rules.inputLimit ≤ w'.rules.inputLimit)
    (hrate : rate'.perKiloWeight ≤ rate.perKiloWeight)
    (courier courier' : Courier) (first : Payment) (rest : List Payment)
    (hpaid : (w.withdrawWith courier.deliver (first :: rest)
      rate).record.funding ≠ .failed) :
    (w'.withdrawWith courier'.deliver (first :: rest) rate').record.funding ≠
      .failed := by
  obtain ⟨picks, hpicks⟩ := suffices_of_paid hw courier hpaid
  obtain ⟨picks', hpicks'⟩ := hpicks.exists_suffices hw' hcoins hlimit hrate
    (target_combined_mono hrate first rest)
  exact paid_of_suffices hw' courier' hpicks'

/-- A wallet after the same three deposits and one more. -/
def ofFourDeposits : Wallet where
  rules := ⟨{}, ⟨2500⟩, 526, 11, 5, 0⟩
  coins :=
    ofThreeDeposits.coins ++ [⟨3, .ofScript 90000 (.numbered depositTag 3)⟩]
  received := 4

theorem withdraw_paid_of_four_deposits :
    ofThreeDeposits.Reachable ∧ ofFourDeposits.Reachable ∧
      ofThreeDeposits.CoinsIn ofFourDeposits ∧
      (ofThreeDeposits.withdraw [⟨60000, .numbered 9 0⟩, ⟨50000, .numbered 9 1⟩]
        ⟨5000⟩).record.funding ≠ .failed ∧
      (ofFourDeposits.withdraw [⟨60000, .numbered 9 0⟩, ⟨50000, .numbered 9 1⟩]
        ⟨250⟩).record.funding ≠ .failed := by
  have hreach := ofThreeDeposits_reachable
  have hreach' : ofFourDeposits.Reachable :=
    ⟨⟨{}, ⟨2500⟩, 526, 11, 5, 0⟩,
      [.deposit 0.0006, .deposit 0.00025, .deposit 0.0004, .deposit 0.0009], by
        decide +kernel⟩
  have hcoins : ofThreeDeposits.CoinsIn ofFourDeposits :=
    ((List.sublist_append_left _ _).map _).subperm
  have hsuffices : ofThreeDeposits.Suffices ⟨5000⟩
      ((combined ⟨60000, .numbered 9 0⟩ [⟨50000, .numbered 9 1⟩] ⟨5000⟩).target
        ⟨5000⟩) ofThreeDeposits.coins := by
    constructor <;> decide
  have hpaid := paid_of_suffices hreach.wellNumbered
    (Deadline.courier ofThreeDeposits.rules.settings.limits 5) hsuffices
  have hrate : (⟨250⟩ : FeeRate).perKiloWeight ≤
      (⟨5000⟩ : FeeRate).perKiloWeight := by decide
  refine ⟨hreach, hreach', hcoins, hpaid, ?_⟩
  exact withdrawWith_paid_mono hreach.wellNumbered hreach'.wellNumbered hcoins
    (by decide) hrate _
    (Deadline.courier ofFourDeposits.rules.settings.limits 5) _ _ hpaid

end Wallet
end ExactSpend
