import ExactSpend.Proofs.Fees
import ExactSpend.Proofs.Wallet.Sufficiency

/-!
# What a payment is charged

The target of a payment counts the fee of every part of its transaction apart,
each rounded up.  The fee that is paid in the end is what these parts cost and
the excess of the coins, less the change; so it is never below the fee for the
transaction as a whole.
-/

namespace ExactSpend

/-! ## Fees of the parts -/

theorem Script.length_littleEndian (n x : ℕ) :
    (littleEndian n x).length = n := by
  induction n generalizing x with
  | zero => rfl
  | succ n ih => rw [littleEndian, List.length_cons, ih]

/-- The scripts of a wallet differ in their bytes only. -/
theorem Script.outputSize_numbered (tag : UInt8) (index : ℕ) :
    (numbered tag index).outputSize = 31 := by
  have hlength : (numbered tag index).bytes.length = 22 := by
    simp [numbered, length_littleEndian]
  rw [outputSize, hlength]
  rfl

namespace Wallet

variable {w : Wallet} {rate : FeeRate} {spent : List OwnedCoin}

theorem changeScript_outputCost (w : Wallet) (rate : FeeRate) :
    w.changeScript.outputCost rate = changeOutputCost rate := by
  rw [changeOutputCost, changeScript, Script.outputCost, Script.outputCost,
    Script.outputSize_numbered, Script.outputSize_numbered]

/-- The fees for spending some coins. -/
def inputFees (rate : FeeRate) (spent : List OwnedCoin) : ℕ :=
  Unsigned.total (spent.map (·.coin.inputCost rate))

/-- The fees for the outputs of some payments and for the overhead. -/
def outputFees (rate : FeeRate) (payments : List Payment) : ℕ :=
  Unsigned.total (payments.map (·.script.outputCost rate)) +
    rate.fee overheadSize

/-- The fee of a transaction without change, each part of it charged apart. -/
def requiredFee (rate : FeeRate) (spent : List OwnedCoin)
    (payments : List Payment) : ℕ :=
  inputFees rate spent + outputFees rate payments

/-- The amounts of some payments and the fees for their outputs. -/
def needed (rate : FeeRate) (payments : List Payment) : ℕ :=
  Unsigned.total (payments.map (·.amount)) + outputFees rate payments

/-- Below the ceiling the target is what the payments need. -/
theorem target_combined {first : Payment} {rest : List Payment}
    (h : (needed rate (first :: rest) : ℤ) ≤ signedMax) :
    (combined first rest rate).target rate = needed rate (first :: rest) := by
  have hneeded : needed rate (first :: rest) =
      (combined first rest rate).amount + first.script.outputCost rate := by
    simp only [needed, outputFees, combined, extraFees, List.map_cons,
      List.tail_cons, Unsigned.total_cons]
    omega
  rw [hneeded] at h ⊢
  have hscript : (combined first rest rate).script = first.script := rfl
  rw [Payment.target, hscript, Signed.ofCount, Signed.ofCount,
    min_eq_left (by omega), min_eq_left (by omega),
    Signed.add_eq_of_le (by omega)]
  exact (Int.natCast_add _ _).symm

theorem effective_add_inputFees (rate : FeeRate)
    (h : (held spent : ℤ) ≤ signedMax) :
    effective rate spent + inputFees rate spent = held spent := by
  induction spent with
  | nil => rfl
  | cons c spent ih =>
      have hheld : held (c :: spent) = c.coin.amount + held spent := rfl
      have hfees : inputFees rate (c :: spent) =
          c.coin.inputCost rate + inputFees rate spent := rfl
      have hcoin := c.coin.effectiveValue_add_inputCost (by omega) rate
      have hspent := ih (by omega)
      rw [effective_cons]
      omega

/-- What a payment is charged is the cost of the parts and what the coins are
worth beyond the target and the change. -/
theorem Spends.fee_eq_requiredFee {paid : Withdrawal Wallet}
    (h : w.Spends rate paid spent)
    {payments : List Payment} (hspent : (held spent : ℤ) ≤ signedMax)
    (hamount : paid.record.amount = Unsigned.total (payments.map (·.amount)))
    (hneeded : (needed rate payments : ℤ) ≤ signedMax) :
    paid.record.fee = some ((requiredFee rate spent payments : ℤ)
      + (effective rate spent - needed rate payments
        - paid.record.change.getD 0)) := by
  have hworth := effective_add_inputFees rate hspent
  have hchange : (paid.record.change.getD 0 : ℕ) ≤ signedMax :=
    h.change_le.trans ((effective_le_held rate spent).trans hspent)
  have hamount' : (paid.record.amount : ℤ) ≤ signedMax := by
    rw [needed] at hneeded
    omega
  rw [h.fee_eq, Signed.ofWord_of_le hspent, Signed.ofWord_of_le hamount',
    Signed.ofWord_of_le hchange, hamount, requiredFee, needed]
  congr 1
  omega

/-! ## The transaction -/

/-- The scripts that the transaction of some payments pays to. -/
def outputScripts (w : Wallet) (payments : List Payment)
    (change : Option ℕ) : List Script :=
  payments.map (·.script) ++ if change.isSome then [w.changeScript] else []

/-- The virtual size of the transaction that pays some payments with some
coins. -/
def transactionSize (w : Wallet) (payments : List Payment)
    (spent : List OwnedCoin) (change : Option ℕ) : ℕ :=
  overheadSize + Unsigned.total (spent.map (·.coin.inputSize))
    + Unsigned.total ((w.outputScripts payments change).map (·.outputSize))

theorem total_outputCost (w : Wallet) (rate : FeeRate) (payments : List Payment)
    (change : Option ℕ) :
    Unsigned.total ((w.outputScripts payments change).map (·.outputCost rate)) =
      Unsigned.total (payments.map (·.script.outputCost rate)) +
        if change.isSome then changeOutputCost rate else 0 := by
  rw [outputScripts, List.map_append, Unsigned.total_append, List.map_map]
  cases change with
  | none => rfl
  | some v =>
      rw [← w.changeScript_outputCost rate]
      rfl

/-- The whole is charged no more than its parts. -/
theorem fee_transactionSize_le (w : Wallet) (rate : FeeRate)
    (payments : List Payment) (spent : List OwnedCoin) (change : Option ℕ) :
    rate.fee (w.transactionSize payments spent change) ≤
      requiredFee rate spent payments +
        if change.isSome then changeOutputCost rate else 0 := by
  have hinputs := rate.fee_total_le (spent.map (·.coin.inputSize))
  have houtputs :=
    rate.fee_total_le ((w.outputScripts payments change).map (·.outputSize))
  rw [List.map_map] at hinputs houtputs
  calc rate.fee (w.transactionSize payments spent change)
      ≤ rate.fee overheadSize + rate.fee
        (Unsigned.total (spent.map (·.coin.inputSize))) +
          rate.fee (Unsigned.total
            ((w.outputScripts payments change).map (·.outputSize))) :=
        (rate.fee_add_le _ _).trans
          (Nat.add_le_add_right (rate.fee_add_le _ _) _)
    _ ≤ rate.fee overheadSize + inputFees rate spent +
          Unsigned.total
            ((w.outputScripts payments change).map (·.outputCost rate)) :=
        Nat.add_le_add (Nat.add_le_add_left hinputs _) houtputs
    _ = requiredFee rate spent payments +
        if change.isSome then changeOutputCost rate else 0 := by
        rw [total_outputCost, requiredFee, outputFees]
        omega

/-- The fee rate that a payment comes to counts its whole transaction. -/
theorem settle_realRate (payments : List Payment) (record : PaymentRecord)
    (choice : Choice) {fee : ℤ}
    (h : (w.settle payments rate record choice).record.fee = some fee) :
    (w.settle payments rate record choice).record.realRate =
      some (Single.ofAmount fee / Single.ofCount
        (w.transactionSize payments (w.split choice.serials).1
          choice.change)) := by
  obtain rfl := Option.some.inj h
  rfl

/-- What a payment that does not fail spends, and what its choice leaves and
records. -/
theorem exists_choice_of_paid (hw : w.WellNumbered) (courier : Courier)
    {first : Payment} {rest : List Payment}
    (hpaid : (w.withdrawWith courier.deliver (first :: rest)
      rate).record.funding ≠ .failed) :
    ∃ (choice : Choice) (spent : List OwnedCoin),
      w.Spends rate (w.withdrawWith courier.deliver (first :: rest) rate)
        spent ∧
      choice.Leaves w rate (Signed.ofCount (w.tolerance rate))
        (effective rate spent - (combined first rest rate).target rate) ∧
      let record := (w.withdrawWith courier.deliver (first :: rest) rate).record
      record.funding = choice.funding ∧ record.change = choice.change ∧
        record.overpayment = choice.overpayment ∧
        ∀ fee, record.fee = some fee → record.realRate =
          some (Single.ofAmount fee / Single.ofCount
            (w.transactionSize (first :: rest) spent choice.change)) := by
  obtain ⟨choice, hchosen⟩ := exists_chosen_of_paid hpaid
  obtain ⟨record, notices, heq⟩ := withdrawWith_of_some hchosen
  obtain ⟨picks, hfunds⟩ := exists_funds_of_chosen hw courier hchosen
  have hspends :=
    settle_spends hw (target_nonneg _ rate) hfunds (first :: rest) record
  have hspent := split_fst_eq_filter hw hfunds.spendable.mem
  rw [← hfunds.serials_eq] at hspent
  have hleaves := choose?_leaves hw hchosen
  rw [worth, hspent] at hleaves
  refine ⟨choice, w.coins.filter fun c => c ∈ picks, ?_, hleaves, ?_⟩
  · rw [heq]
    exact { hspends with }
  · rw [heq, ← hspent]
    exact ⟨rfl, rfl, rfl, fun fee =>
      settle_realRate (first :: rest) record choice⟩

/-- What a payment costs beyond its amount.  Without change it is the cost of
its parts and the excess over the target, which is recorded and within the
tolerance; with change it is the cost of the parts and of the change output;
and where change would be dust it exceeds the cost of the parts by less than
the change output and the dust limit.  It always pays the rate asked for on the
whole transaction. -/
theorem withdrawWith_fee_covers (hreach : w.Reachable)
    (hbalance : (w.balance : ℤ) ≤ signedMax) (courier : Courier)
    (payments : List Payment)
    (hneeded : (needed rate payments : ℤ) ≤ signedMax)
    (hpaid : (w.withdrawWith courier.deliver payments rate).record.funding ≠
      .failed) :
    let record := (w.withdrawWith courier.deliver payments rate).record
    ∃ spent fee,
      w.Spends rate (w.withdrawWith courier.deliver payments rate) spent ∧
      record.fee = some fee ∧
      (record.funding = .changeless → ∃ excess,
        record.overpayment = some excess ∧
        record.change = none ∧ fee = requiredFee rate spent payments + excess ∧
        0 ≤ excess ∧ excess ≤ w.tolerance rate) ∧
      (record.funding = .largestFirst → record.change.isSome →
        fee = requiredFee rate spent payments +
          w.changeScript.outputCost rate) ∧
      (record.funding = .largestFirst → record.change = none →
        requiredFee rate spent payments ≤ fee ∧
          fee < requiredFee rate spent payments + w.changeScript.outputCost rate
            + w.rules.dustLimit) ∧
      record.realRate = some (Single.ofAmount fee / Single.ofCount
        (w.transactionSize payments spent record.change)) ∧
      (rate.fee (w.transactionSize payments spent record.change) : ℤ) ≤
        fee := by
  have hw := hreach.wellNumbered
  cases payments with
  | nil => exact absurd rfl hpaid
  | cons first rest =>
      obtain ⟨choice, spent, hspends, hleaves, hfunding,
          hchange, hover, hrate⟩ :=
        exists_choice_of_paid hw courier hpaid
      have hspent : (held spent : ℤ) ≤ signedMax := by
        have hpart := held_filter_add hw hspends.spendable
        have hheld : held w.coins = w.balance := rfl
        omega
      have hfee := hspends.fee_eq_requiredFee hspent
        (withdrawWith_amount courier.deliver w (first :: rest) rate) hneeded
      rw [target_combined hneeded] at hleaves
      intro record
      rw [w.changeScript_outputCost, show record.change = _ from hchange,
        show record.funding = _ from hfunding,
            show record.overpayment = _ from hover]
      rw [hchange] at hfee
      refine ⟨spent, _, hspends, hfee, ?_, ?_, ?_, hrate _ hfee, ?_⟩
      · intro hchangeless
        obtain ⟨hnone, hexcess, hlow, hhigh⟩ :=
          hleaves.of_changeless hchangeless
        refine ⟨_, hexcess, hnone, ?_, hlow, hhigh.trans (min_le_left _ _)⟩
        rw [hnone, Option.getD_none]
        omega
      · intro _ hsome
        obtain ⟨v, hv⟩ := Option.isSome_iff_exists.mp hsome
        rw [hleaves.of_change hv, hv, Option.getD_some]
        omega
      · intro hlargest hnone
        obtain ⟨hlow, hdust⟩ := hleaves.of_dust hlargest hnone
        rw [hnone, Option.getD_none]
        omega
      · have hsize :=
          w.fee_transactionSize_le rate (first :: rest) spent choice.change
        have hchange_le := hleaves.change_add_le
        omega

theorem withdraw_fee_of_three_deposits :
    let record :=
      (ofThreeDeposits.withdraw [⟨100000, .numbered 9 0⟩] ⟨250⟩).record
    ofThreeDeposits.Reachable ∧ (ofThreeDeposits.balance : ℤ) ≤ signedMax ∧
      (needed ⟨250⟩ [⟨100000, .numbered 9 0⟩] : ℤ) ≤ signedMax ∧
        record.funding ≠ .failed ∧
      ∃ spent fee, record.fee = some fee ∧
        ((⟨250⟩ : FeeRate).fee
          (ofThreeDeposits.transactionSize [⟨100000, .numbered 9 0⟩] spent
            record.change) : ℤ) ≤ fee := by
  have hreach := ofThreeDeposits_reachable
  have hbalance : (ofThreeDeposits.balance : ℤ) ≤ signedMax := by decide
  have hneeded : (needed ⟨250⟩ [⟨100000, .numbered 9 0⟩] : ℤ) ≤ signedMax := by
    decide
  have hsuffices : ofThreeDeposits.Suffices ⟨250⟩
      ((combined ⟨100000, .numbered 9 0⟩ [] ⟨250⟩).target ⟨250⟩)
        ofThreeDeposits.coins :=
    ⟨by decide, by decide, by decide, by decide⟩
  have hpaid := paid_of_suffices hreach.wellNumbered
    (Deadline.courier ofThreeDeposits.rules.settings.limits 5) hsuffices
  obtain ⟨spent, fee, -, hfee, -, -, -, -, hcovers⟩ :=
    withdrawWith_fee_covers hreach hbalance
    (Deadline.courier ofThreeDeposits.rules.settings.limits 5) _ hneeded hpaid
  exact ⟨hreach, hbalance, hneeded, hpaid, spent, fee, hfee, hcovers⟩

end Wallet
end ExactSpend
