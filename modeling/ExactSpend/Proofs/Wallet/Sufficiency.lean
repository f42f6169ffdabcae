import ExactSpend.Proofs.Wallet.Changeless

/-!
# Sufficient coins

Whether a payment fails does not depend on how far its searches come.  The
largest usable coins are worth as much as any coins that one payment may spend,
so when they fall short nothing else would have paid either.
-/

namespace ExactSpend
namespace Wallet

variable {w : Wallet} {rate : FeeRate} {picks : List OwnedCoin}

/-! ## The largest coins are worth most -/

theorem effective_nonneg (h : ∀ c ∈ picks, 0 < c.coin.effectiveValue rate) :
    0 ≤ effective rate picks := by
  apply Signed.total_nonneg
  rw [List.forall_mem_map]
  exact fun c hc => le_of_lt (h c hc)

theorem effective_le_filter_pos (rate : FeeRate) (picks : List OwnedCoin) :
    effective rate picks ≤
      effective rate
        (picks.filter fun c => 0 < c.coin.effectiveValue rate) := by
  induction picks with
  | nil => exact le_rfl
  | cons c picks ih =>
      by_cases hpos : 0 < c.coin.effectiveValue rate
      · rw [List.filter_cons_of_pos (by simpa using hpos), effective_cons,
          effective_cons]
        exact Int.add_le_add_left ih _
      · rw [List.filter_cons_of_neg (by simpa using hpos), effective_cons]
        omega

/-- Among coins in descending order of worth, no part with at most `k` coins is
worth more than the first `k`. -/
theorem effective_le_take {coins : List OwnedCoin}
    (hdesc : coins.Pairwise fun a b =>
      b.coin.effectiveValue rate ≤ a.coin.effectiveValue rate)
    (hpos : ∀ c ∈ coins, 0 < c.coin.effectiveValue rate) :
    ∀ {picks : List OwnedCoin} {k : ℕ}, picks.Sublist coins → picks.length ≤ k →
      effective rate picks ≤ effective rate (coins.take k) := by
  induction coins with
  | nil =>
      intro picks k hsub _
      rw [List.sublist_nil.mp hsub, List.take_nil]
  | cons c coins ih =>
      intro picks k hsub hlength
      obtain ⟨hlargest, hdesc'⟩ := List.pairwise_cons.mp hdesc
      cases picks with
      | nil =>
          exact effective_nonneg fun d hd => hpos d (List.mem_of_mem_take hd)
      | cons d picks =>
          obtain ⟨k, rfl⟩ := Nat.exists_eq_succ_of_ne_zero
            (Nat.ne_of_gt (lt_of_lt_of_le (Nat.succ_pos _) hlength))
          have hd :
              d.coin.effectiveValue rate ≤ c.coin.effectiveValue rate := by
            rcases List.mem_cons.mp (hsub.subset List.mem_cons_self)
              with rfl | hd
            · exact le_rfl
            · exact hlargest d hd
          have hrest : effective rate picks ≤ effective rate (coins.take k) :=
            ih hdesc' (fun d hd => hpos d (List.mem_cons_of_mem c hd)) hsub.tail
              (Nat.le_of_succ_le_succ hlength)
          rw [List.take_succ_cons, effective_cons, effective_cons]
          exact Int.add_le_add hd hrest

theorem byWorth_descending (w : Wallet) (rate : FeeRate) :
    (w.byWorth rate).Pairwise fun a b =>
      b.coin.effectiveValue rate ≤ a.coin.effectiveValue rate :=
  pairwise_ranking (fun c : OwnedCoin => c.coin.effectiveValue rate) _

theorem mem_byWorth {c : OwnedCoin} :
    c ∈ w.byWorth rate ↔ c ∈ w.coins ∧ 0 < c.coin.effectiveValue rate := by
  rw [byWorth, List.mem_mergeSort, List.mem_filter, decide_eq_true_iff]

/-- Distinct coins of a wallet, no more than one payment may spend, that are
worth a target together.  Some of them may cost more than they are worth. -/
structure Suffices (w : Wallet) (rate : FeeRate) (target : ℤ)
    (picks : List OwnedCoin) :
    Prop where
  nodup : picks.Nodup
  mem : ∀ c ∈ picks, c ∈ w.coins
  length_le : picks.length ≤ w.rules.inputLimit
  target_le : target ≤ effective rate picks

theorem Spendable.suffices (h : w.Spendable rate picks) {target : ℤ}
    (htarget : target ≤ effective rate picks) : w.Suffices rate target picks :=
  ⟨h.nodup, h.mem, h.length_le, htarget⟩

/-- The largest coins suffice if any do. -/
theorem Suffices.target_le_largest {target : ℤ}
    (h : w.Suffices rate target picks) (hw : w.WellNumbered) :
    target ≤ effective rate ((w.byWorth rate).take w.rules.inputLimit) := by
  have hnodup : (w.byWorth rate).Nodup :=
    (List.mergeSort_perm _ _).nodup_iff.mpr (hw.coins_nodup.filter _)
  -- The usable ones among the coins, in the order in which the wallet takes
  -- them.
  have hperm : (picks.filter fun c => 0 < c.coin.effectiveValue rate).Perm
      ((w.byWorth rate).filter fun c => c ∈ picks) := by
    rw [List.perm_ext_iff_of_nodup (h.nodup.filter _) (hnodup.filter _)]
    intro c
    rw [List.mem_filter, List.mem_filter, mem_byWorth, decide_eq_true_iff,
      decide_eq_true_iff]
    exact ⟨fun hc => ⟨⟨h.mem c hc.1, hc.2⟩, hc.1⟩, fun hc => ⟨hc.2, hc.1.2⟩⟩
  have hlength : ((w.byWorth rate).filter fun c => c ∈ picks).length ≤
      w.rules.inputLimit := by
    rw [← hperm.length_eq]
    exact (List.length_filter_le _ _).trans h.length_le
  calc target
      ≤ effective rate picks := h.target_le
    _ ≤ effective rate (picks.filter fun c => 0 < c.coin.effectiveValue rate) :=
        effective_le_filter_pos rate picks
    _ = effective rate ((w.byWorth rate).filter fun c => c ∈ picks) :=
      effective_perm hperm
    _ ≤ effective rate ((w.byWorth rate).take w.rules.inputLimit) :=
        effective_le_take (w.byWorth_descending rate)
          (fun c hc => (mem_byWorth.mp hc).2) List.filter_sublist hlength

/-- The largest coins are chosen exactly when some coins suffice. -/
theorem largestFirst?_eq_none_iff (hw : w.WellNumbered) {target : ℤ} :
    w.largestFirst? rate target = none ↔
      ¬∃ picks, w.Suffices rate target picks := by
  rcases w.largestFirst?_cases rate target 0 with
    ⟨hnone, hshort⟩ | ⟨n, hn, choice, hsome, -, -, hleaves⟩
  · refine iff_of_true hnone ?_
    rintro ⟨picks, hpicks⟩
    exact absurd (hpicks.target_le_largest hw) (not_le.mpr hshort)
  · have hspendable := w.spendable_take rate hw hn
    have hcovers : target ≤ effective rate ((w.byWorth rate).take n) := by
      have hchange := hleaves.change_le
      omega
    rw [hsome]
    exact iff_of_false (Option.some_ne_none choice)
      (not_not.mpr ⟨_, hspendable.suffices hcovers⟩)

/-! ## Failed payments -/

theorem suffices_of_paid (hw : w.WellNumbered) (courier : Courier)
    {first : Payment} {rest : List Payment}
    (hpaid : (w.withdrawWith courier.deliver (first :: rest)
      rate).record.funding ≠ .failed) :
    ∃ picks, w.Suffices rate
      ((combined first rest rate).target rate) picks := by
  obtain ⟨choice, hchosen⟩ := exists_chosen_of_paid hpaid
  obtain ⟨picks, hfunds⟩ := exists_funds_of_chosen hw courier hchosen
  have htarget :=
    (le_add_of_nonneg_right (Int.natCast_nonneg _)).trans hfunds.covers
  exact ⟨picks, hfunds.spendable.suffices htarget⟩

theorem paid_of_suffices (hw : w.WellNumbered) (courier : Courier)
    {first : Payment} {rest : List Payment}
    (h : w.Suffices rate ((combined first rest rate).target rate) picks) :
    (w.withdrawWith courier.deliver (first :: rest) rate).record.funding ≠
      .failed := by
  cases hchosen : w.chosen courier.deliver first rest rate with
  | none =>
      have hlargest := ((Option.orElse_eq_none _ _).mp hchosen).2
      exact absurd ⟨picks, h⟩ ((largestFirst?_eq_none_iff hw).mp hlargest)
  | some choice =>
      obtain ⟨record, notices, heq⟩ := withdrawWith_of_some hchosen
      rw [heq]
      exact (choose?_leaves hw hchosen).funding_ne

/-- A payment fails exactly when no coins, not even the empty set, are worth its
target, whatever its searches yield and however they end. -/
theorem withdrawWith_failed_iff (hreach : w.Reachable) (courier : Courier)
    (first : Payment) (rest : List Payment) (rate : FeeRate) :
    (w.withdrawWith courier.deliver (first :: rest) rate).record.funding =
        .failed ↔
      ¬∃ picks,
        w.Suffices rate ((combined first rest rate).target rate) picks := by
  have hw := hreach.wellNumbered
  constructor
  · rintro hfailed ⟨picks, hpicks⟩
    exact paid_of_suffices hw courier hpicks hfailed
  · intro hnone
    by_contra hpaid
    exact hnone (suffices_of_paid hw courier hpaid)

/-- Of 125000 satoshis in three coins one payment takes all but not more. -/
theorem withdraw_failed_of_three_deposits :
    ofThreeDeposits.Reachable ∧
      (ofThreeDeposits.withdraw [⟨125001, .numbered 9 0⟩] ⟨0⟩).record.funding =
        .failed ∧
      (ofThreeDeposits.withdraw [⟨125000, .numbered 9 0⟩] ⟨0⟩).record.funding ≠
        .failed := by
  have hreach := ofThreeDeposits_reachable
  have hfailed (amount : ℕ) := withdrawWith_failed_iff hreach
    (Deadline.courier ofThreeDeposits.rules.settings.limits 5)
      ⟨amount, .numbered 9 0⟩ [] ⟨0⟩
  refine ⟨hreach, (hfailed 125001).mpr ?_,
    (not_congr (hfailed 125000)).mpr (not_not.mpr ?_)⟩
  · rintro ⟨picks, hpicks⟩
    have hw := hreach.wellNumbered
    have hbalance :=
      (ofThreeDeposits.spendable_take ⟨0⟩ hw le_rfl).effective_le_balance hw
    exact absurd ((hpicks.target_le_largest hw).trans hbalance) (by decide)
  · exact ⟨ofThreeDeposits.coins, by decide, by decide, by decide, by decide⟩

end Wallet
end ExactSpend
