import ExactSpend.Proofs.Wallet.Choices

/-!
# Payments from a wallet

A payment either fails and leaves the wallet alone, or it spends coins that the
wallet may spend and receives the change.  The cases are worked out once here;
results about wallets go through them and not through the code.
-/

namespace ExactSpend
namespace Wallet

variable {w : Wallet} {rate : FeeRate} {picks : List OwnedCoin}

/-- What a payment that does not fail does: it takes the coins `spent` out,
keeps all others in order and receives the change, if there is any. -/
structure Spends (w : Wallet) (rate : FeeRate) (paid : Withdrawal Wallet)
    (spent : List OwnedCoin) : Prop where
  sublist : spent.Sublist w.coins
  spendable : w.Spendable rate spent
  inputs_eq : paid.record.inputs = spent.map (·.coin.amount)
  negativeInputs_eq : paid.record.negativeInputs = some 0
  coins_eq : paid.state.coins = (w.coins.filter fun c => c ∉ spent) ++
    (paid.record.change.map fun v =>
      ⟨w.received, .ofScript v w.changeScript⟩).toList
  received_eq :
    paid.state.received = w.received + paid.record.change.toList.length
  rules_eq : paid.state.rules = w.rules
  change_le : (paid.record.change.getD 0 : ℕ) ≤ effective rate spent
  fee_eq : paid.record.fee = some (Signed.ofWord (held spent)
    - Signed.ofWord paid.record.amount
    - Signed.ofWord (paid.record.change.getD 0))

/-- Taking out some coins leaves those that are not among the coins taken. -/
theorem filter_not_mem_filter (w : Wallet) (picks : List OwnedCoin) :
    (w.coins.filter fun c => c ∉ w.coins.filter fun c => c ∈ picks) =
      w.coins.filter fun c => c ∉ picks := by
  apply List.filter_congr
  intro c hc
  simp [hc]

theorem Spendable.filter_negative_eq_nil (h : w.Spendable rate picks) :
    (picks.filter fun c => c.coin.effectiveValue rate < 0) = [] := by
  rw [List.filter_eq_nil_iff]
  intro c hc hnegative
  have hpos := h.worth_pos c hc
  have hneg := of_decide_eq_true hnegative
  omega

theorem settle_spends (hw : w.WellNumbered) {target : ℤ} (htarget : 0 ≤ target)
    {choice : Choice} (hfunds : choice.Funds w rate target picks)
    (payments : List Payment) (record : PaymentRecord) :
    w.Spends rate (w.settle payments rate record choice)
      (w.coins.filter fun c => c ∈ picks) := by
  have hperm := filter_mem_perm hw hfunds.spendable.nodup hfunds.spendable.mem
  have hspendable := hfunds.spendable.perm hperm.symm
  have hspent :
      (w.split choice.serials).1 = w.coins.filter fun c => c ∈ picks := by
    rw [hfunds.serials_eq, split_fst_eq_filter hw hfunds.spendable.mem]
  have hkept : (w.split choice.serials).2 =
      w.coins.filter fun c => c ∉ w.coins.filter fun c => c ∈ picks := by
    rw [hfunds.serials_eq, split_snd_eq_filter hw hfunds.spendable.mem,
      filter_not_mem_filter]
  have hnegative :
      (w.settle payments rate record choice).record.negativeInputs =
      some ((w.split choice.serials).1.filter fun c =>
        c.coin.effectiveValue rate < 0).length := rfl
  have hcovers := hfunds.covers
  rw [← effective_perm hperm] at hcovers
  refine ⟨List.filter_sublist, hspendable, ?_, ?_, ?_, ?_, ?_, ?_, ?_⟩
  · rw [← hspent]
    rfl
  · rw [hnegative, hspent, hspendable.filter_negative_eq_nil]
    rfl
  · rw [← hkept]
    cases hchange : choice.change <;> simp [settle, receive, hchange]
  · cases hchange : choice.change <;> simp [settle, receive, hchange]
  · cases hchange : choice.change <;> simp [settle, receive, hchange]
  · change ((choice.change.getD 0 : ℕ) : ℤ) ≤ _
    omega
  · rw [← hspent]
    rfl

/-! ## Cases of a withdrawal -/

/-- The subsets that the searches for a payment yield. -/
def yields (deliver : List Task → Delivery) (w : Wallet) (payment : Payment)
    (rate : FeeRate) :
    List (List ℕ) :=
  (harvest (deliver (w.request payment rate).plan.tasks).arrivals).map
    w.serialsAt

/-- What a wallet chooses to fund some payments. -/
def chosen (deliver : List Task → Delivery) (w : Wallet) (first : Payment)
    (rest : List Payment) (rate : FeeRate) : Option Choice :=
  w.choose? rate ((combined first rest rate).target rate)
    (Signed.ofCount (w.tolerance rate))
    (yields deliver w (combined first rest rate) rate)

/-- What is chosen decides how a withdrawal goes on. -/
theorem withdrawWith_cons (deliver : List Task → Delivery) (w : Wallet)
    (first : Payment) (rest : List Payment) (rate : FeeRate) :
    ∃ record searched, record.amount =
      Unsigned.total ((first :: rest).map (·.amount)) ∧
      record.funding = .failed ∧
      w.withdrawWith deliver (first :: rest) rate =
        match w.chosen deliver first rest rate with
        | none => ⟨w, record, searched⟩
        | some choice =>
          { w.settle (first :: rest) rate record choice with
            notices := searched ++
              (w.settle (first :: rest) rate record choice).notices } :=
  ⟨_, _, rfl, rfl, rfl⟩

theorem withdrawWith_of_none {deliver : List Task → Delivery} {first : Payment}
    {rest : List Payment} (h : w.chosen deliver first rest rate = none) :
    (w.withdrawWith deliver (first :: rest) rate).state = w ∧
      (w.withdrawWith deliver (first :: rest) rate).record.funding =
        .failed := by
  obtain ⟨record, searched, -, hfailed, heq⟩ :=
    withdrawWith_cons deliver w first rest rate
  rw [heq, h]
  exact ⟨rfl, hfailed⟩

/-- Behind every payment that does not fail stands a choice. -/
theorem exists_chosen_of_paid {deliver : List Task → Delivery} {first : Payment}
    {rest : List Payment}
    (hpaid : (w.withdrawWith deliver (first :: rest) rate).record.funding ≠
      .failed) :
    ∃ choice, w.chosen deliver first rest rate = some choice := by
  cases h : w.chosen deliver first rest rate with
  | none => exact absurd (withdrawWith_of_none h).2 hpaid
  | some choice => exact ⟨choice, rfl⟩

theorem withdrawWith_of_some {deliver : List Task → Delivery} {first : Payment}
    {rest : List Payment} {choice : Choice}
    (h : w.chosen deliver first rest rate = some choice) :
    ∃ record notices, w.withdrawWith deliver (first :: rest) rate =
      { w.settle (first :: rest) rate record choice with notices } := by
  obtain ⟨record, searched, -, -, heq⟩ :=
    withdrawWith_cons deliver w first rest rate
  rw [heq, h]
  exact ⟨record, _, rfl⟩

theorem withdrawWith_amount (deliver : List Task → Delivery) (w : Wallet)
    (payments : List Payment) (rate : FeeRate) :
    (w.withdrawWith deliver payments rate).record.amount =
      Unsigned.total (payments.map (·.amount)) := by
  cases payments with
  | nil => rfl
  | cons first rest =>
      obtain ⟨record, searched, hamount, -, heq⟩ :=
        withdrawWith_cons deliver w first rest rate
      rw [heq, ← hamount]
      cases w.chosen deliver first rest rate with
      | none => rfl
      | some choice => rfl

/-- Whatever the searches yield, the wallet may spend. -/
theorem spendable_of_mem_yields (hw : w.WellNumbered)
    {deliver : List Task → Delivery} {payment : Payment}
    (hanswers : ∀ a ∈ (deliver (w.request payment rate).plan.tasks).arrivals,
      a.Answers (w.request payment rate).plan.tasks)
    {serials : List ℕ} (h : serials ∈ yields deliver w payment rate) :
    ∃ picks, w.Spendable rate picks ∧ serials = picks.map (·.serial) := by
  obtain ⟨indices, hindices, rfl⟩ := List.mem_map.mp h
  have haffords := Request.affords_of_mem_harvest hanswers hindices
  obtain ⟨picks, hcoins, hpicks⟩ := exists_spendable hw haffords
  exact ⟨picks, hpicks, hcoins.serialsAt_eq⟩

/-- What is chosen may be spent, however the searches went. -/
theorem exists_funds_of_chosen (hw : w.WellNumbered) (courier : Courier)
    {first : Payment} {rest : List Payment} {choice : Choice}
    (h : w.chosen courier.deliver first rest rate = some choice) :
    ∃ picks, choice.Funds w rate
      ((combined first rest rate).target rate) picks :=
  choose?_funds hw (fun _ hserials =>
    spendable_of_mem_yields hw (courier.answers _) hserials) h

theorem target_nonneg (payment : Payment) (rate : FeeRate) :
    0 ≤ payment.target rate := by
  have hamount := Signed.ofCount_nonneg payment.amount
  have hcost := Signed.ofCount_nonneg (payment.script.outputCost rate)
  unfold Payment.target Signed.add signedMax
  omega

/-- A withdrawal fails and leaves the wallet alone, or it spends some coins. -/
theorem withdrawWith_cases (hw : w.WellNumbered) (courier : Courier)
    (payments : List Payment) (rate : FeeRate) :
    ((w.withdrawWith courier.deliver payments rate).record.funding = .failed ∧
        (w.withdrawWith courier.deliver payments rate).state = w) ∨
      (w.withdrawWith courier.deliver payments rate).record.funding ≠ .failed ∧
        ∃ spent, w.Spends rate
          (w.withdrawWith courier.deliver payments rate) spent := by
  cases payments with
  | nil => exact Or.inl ⟨rfl, rfl⟩
  | cons first rest =>
      cases h : w.chosen courier.deliver first rest rate with
      | none =>
          obtain ⟨hstate, hfunding⟩ := withdrawWith_of_none h
          exact Or.inl ⟨hfunding, hstate⟩
      | some choice =>
          right
          obtain ⟨record, notices, heq⟩ := withdrawWith_of_some h
          obtain ⟨picks, hfunds⟩ := exists_funds_of_chosen hw courier h
          have hspends := settle_spends hw (target_nonneg _ rate) hfunds
            (first :: rest) record
          rw [heq]
          exact ⟨hfunds.funding_ne, _, { hspends with }⟩

end Wallet
end ExactSpend
