import ExactSpend.Proofs.Wallet.Payments

/-!
# Histories of a wallet

A wallet changes by deposits and withdrawals only.  Whatever is done with it,
its coins stay well numbered, and what was deposited is what the wallet still
holds and what its payments and their fees took out.
-/

namespace ExactSpend

/-- What can be done with a wallet. -/
inductive Action
  | deposit (amount : Float)
  | withdraw (payments : List Payment) (rate : FeeRate) (courier : Courier)

/-- The satoshis that a deposit adds; none if it is refused. -/
def Action.accepted : Action → ℕ
  | deposit amount => (Amount.ofBitcoin amount).toOption.getD 0
  | withdraw _ _ _ => 0

/-- The total of the payments that a withdrawal is asked for. -/
def Action.demanded : Action → ℕ
  | deposit _ => 0
  | withdraw payments _ _ => Unsigned.total (payments.map (·.amount))

/-- What an attempt to pay took out of the wallet. -/
def PaymentRecord.drain (record : PaymentRecord) : ℤ :=
  if record.funding = .failed then 0 else record.amount + record.fee.getD 0

namespace Wallet

/-- The wallet after an action and the record of a withdrawal. -/
def act (w : Wallet) : Action → Wallet × List PaymentRecord
  | .deposit amount =>
    match w.deposit amount with
    | .ok after => (after, [])
    | .error _ => (w, [])
  | .withdraw payments rate courier =>
    ((w.withdrawWith courier.deliver payments rate).state,
      [(w.withdrawWith courier.deliver payments rate).record])

/-- The wallet after some actions and the records of all withdrawals. -/
def run : Wallet → List Action → Wallet × List PaymentRecord
  | w, [] => (w, [])
  | w, action :: rest =>
    ((run (w.act action).1 rest).1,
      (w.act action).2 ++ (run (w.act action).1 rest).2)

/-- A wallet that deposits and withdrawals lead to. -/
def Reachable (w : Wallet) : Prop :=
  ∃ rules actions, w = (run ⟨rules, [], 0⟩ actions).1

variable {w : Wallet} {rate : FeeRate}

/-! ## Numbers -/

theorem wellNumbered_fresh (rules : WalletRules) :
    (⟨rules, [], 0⟩ : Wallet).WellNumbered :=
  ⟨List.nodup_nil, by simp⟩

theorem WellNumbered.receive (h : w.WellNumbered) (amount : ℕ)
    (script : Script) :
    (w.receive amount script).WellNumbered := by
  constructor
  · rw [Wallet.receive, List.map_append, List.nodup_append]
    refine ⟨h.nodup, List.nodup_singleton _, ?_⟩
    intro serial hserial other hother
    obtain ⟨c, hc, rfl⟩ := List.mem_map.mp hserial
    rw [List.mem_singleton.mp hother]
    exact ne_of_lt (h.lt_received c hc)
  · intro c hc
    rcases List.mem_append.mp hc with hc | hc
    · exact Nat.lt_succ_of_lt (h.lt_received c hc)
    · rw [List.mem_singleton.mp hc]
      exact Nat.lt_succ_self _

theorem WellNumbered.filter (h : w.WellNumbered) (keep : OwnedCoin → Bool) :
    ({ w with coins := w.coins.filter keep } : Wallet).WellNumbered where
  nodup := (List.filter_sublist.map _).nodup h.nodup
  lt_received c hc := h.lt_received c (List.mem_of_mem_filter hc)

/-- The wallet that a payment leaves: without the coins spent and with the
change. -/
theorem Spends.state_eq {paid : Withdrawal Wallet} {spent : List OwnedCoin}
    (h : w.Spends rate paid spent) :
    paid.state = match paid.record.change with
      | some v => ({ w with coins := w.coins.filter fun c => c ∉ spent } :
          Wallet).receive v w.changeScript
      | none => { w with coins := w.coins.filter fun c => c ∉ spent } := by
  have hcoins := h.coins_eq
  have hreceived := h.received_eq
  have hrules := h.rules_eq
  cases hstate : paid.state with
  | mk rules coins received =>
      rw [hstate] at hcoins hreceived hrules
      cases hchange : paid.record.change with
      | none => simp_all
      | some v => simp_all [Wallet.receive]

theorem Spends.wellNumbered {paid : Withdrawal Wallet} {spent : List OwnedCoin}
    (h : w.Spends rate paid spent) (hw : w.WellNumbered) :
    paid.state.WellNumbered := by
  rw [h.state_eq]
  split
  · exact (hw.filter _).receive _ _
  · exact hw.filter _

/-- A deposit is received or leaves everything as it was. -/
theorem act_deposit (w : Wallet) (amount : Float) :
    w.act (.deposit amount) =
        (w.receive (Action.deposit amount).accepted w.depositScript, []) ∨
      (Action.deposit amount).accepted = 0 ∧
        w.act (.deposit amount) = (w, []) := by
  cases h : Amount.ofBitcoin amount with
  | ok satoshis =>
      left
      simp [act, deposit, Action.accepted, h, Except.toOption]
  | error cause =>
      right
      simp [act, deposit, Action.accepted, h, Except.toOption]

theorem wellNumbered_act (hw : w.WellNumbered) (action : Action) :
    (w.act action).1.WellNumbered := by
  cases action with
  | deposit amount =>
      rcases w.act_deposit amount with heq | ⟨-, heq⟩
      · rw [heq]
        exact hw.receive _ _
      · rw [heq]
        exact hw
  | withdraw payments rate courier =>
      rcases withdrawWith_cases hw courier payments rate with
          ⟨-, hstate⟩ | ⟨-, spent, hspends⟩
      · change (w.withdrawWith courier.deliver payments rate).state.WellNumbered
        rwa [hstate]
      · exact hspends.wellNumbered hw

theorem wellNumbered_run (actions : List Action) :
    ∀ {w : Wallet}, w.WellNumbered → (w.run actions).1.WellNumbered := by
  induction actions with
  | nil => exact fun hw => hw
  | cons action rest ih => exact fun hw => ih (wellNumbered_act hw action)

theorem Reachable.wellNumbered (h : w.Reachable) : w.WellNumbered := by
  obtain ⟨rules, actions, rfl⟩ := h
  exact wellNumbered_run actions (wellNumbered_fresh rules)

/-! ## Totals -/

theorem Spends.held_state {paid : Withdrawal Wallet} {spent : List OwnedCoin}
    (h : w.Spends rate paid spent) (hw : w.WellNumbered) :
    held paid.state.coins + held spent =
      held w.coins + paid.record.change.getD 0 := by
  have hkept := held_filter_add hw h.spendable
  rw [h.coins_eq]
  cases hchange : paid.record.change with
  | none =>
      simp only [Option.map_none, Option.toList_none, List.append_nil,
        Option.getD_none]
      omega
  | some v =>
      simp only [held, Option.map_some, Option.toList_some, List.map_append,
        List.map_cons, List.map_nil, Unsigned.total_append, Unsigned.total_cons,
        Unsigned.total_nil, Option.getD_some, Coin.ofScript] at hkept ⊢
      omega

/-- A payment and its fee take out what was spent less the change. -/
theorem Spends.drain_eq {paid : Withdrawal Wallet} {spent : List OwnedCoin}
    (h : w.Spends rate paid spent) (hfunding : paid.record.funding ≠ .failed)
    (hspent : (held spent : ℤ) ≤ signedMax)
    (hamount : (paid.record.amount : ℤ) ≤ signedMax) :
    paid.record.drain = (held spent : ℤ) - paid.record.change.getD 0 := by
  have hworth := effective_le_held rate spent
  have hchange : (paid.record.change.getD 0 : ℕ) ≤ signedMax :=
    h.change_le.trans (hworth.trans hspent)
  rw [PaymentRecord.drain, if_neg hfunding, h.fee_eq, Option.getD_some,
    Signed.ofWord_of_le hspent, Signed.ofWord_of_le hamount,
      Signed.ofWord_of_le hchange]
  omega

/-- An action balances, and it adds no more to what is held than it accepts. -/
theorem act_conserves (hw : w.WellNumbered) (action : Action)
    (hmax : (held w.coins : ℤ) ≤ signedMax)
    (hdemand : (action.demanded : ℤ) ≤ signedMax) :
    (held w.coins : ℤ) + action.accepted =
        held (w.act action).1.coins +
          Signed.total ((w.act action).2.map PaymentRecord.drain) ∧
      held (w.act action).1.coins ≤ held w.coins + action.accepted := by
  cases action with
  | deposit amount =>
      rcases w.act_deposit amount with heq | ⟨hnone, heq⟩
      · have hheld : held
            (w.receive (Action.deposit amount).accepted w.depositScript).coins =
            held w.coins + (Action.deposit amount).accepted := by
          simp [held, receive, Coin.ofScript]
        rw [heq, hheld]
        simp
      · rw [heq, hnone]
        simp
  | withdraw payments rate courier =>
      have hact : w.act (.withdraw payments rate courier) =
          ((w.withdrawWith courier.deliver payments rate).state,
            [(w.withdrawWith courier.deliver payments rate).record]) := rfl
      have hamount := withdrawWith_amount courier.deliver w payments rate
      rw [hact]
      rcases withdrawWith_cases hw courier payments rate with
        ⟨hfailed, hstate⟩ | ⟨hpaid, spent, hspends⟩
      · rw [List.map_singleton, Signed.total_cons, Signed.total_nil,
          PaymentRecord.drain, if_pos hfailed, hstate]
        simp [Action.accepted]
      · have hkept := hspends.held_state hw
        have hheld := held_filter_add hw hspends.spendable
        have hworth := effective_le_held rate spent
        have hchange := hspends.change_le
        have hdrain :=
          hspends.drain_eq hpaid (by omega) (by rw [hamount]; exact hdemand)
        simp only [List.map_cons, List.map_nil, Signed.total_cons,
          Signed.total_nil, hdrain, Action.accepted]
        constructor <;> omega

theorem run_conserves (actions : List Action) :
    ∀ {w : Wallet}, w.WellNumbered →
      (held w.coins : ℤ) + Unsigned.total
        (actions.map Action.accepted) ≤ signedMax →
      (∀ action ∈ actions, (action.demanded : ℤ) ≤ signedMax) →
        (held w.coins : ℤ) + Unsigned.total (actions.map Action.accepted) =
          held (w.run actions).1.coins +
            Signed.total ((w.run actions).2.map PaymentRecord.drain) := by
  induction actions with
  | nil => simp [run]
  | cons action rest ih =>
      intro w hw hmax hdemands
      rw [List.map_cons, Unsigned.total_cons] at hmax ⊢
      obtain ⟨hact, hle⟩ := act_conserves hw action (by omega)
        (hdemands action List.mem_cons_self)
      have hrest := ih (wellNumbered_act hw action) (by omega)
        fun other hother => hdemands other (List.mem_cons_of_mem action hother)
      simp only [run, List.map_append, Signed.total_append]
      omega

/-- Whatever is deposited into a fresh wallet and paid from it, as long as the
totals fit a signed word: the coins have distinct numbers below the number of
coins received; the deposits add up to what the wallet holds and what payments
and fees took out; a payment that fails leaves the wallet as it was, any other
spends coins as `Spends` says; and a deposit that is refused changes nothing.
The wallet's own withdrawals are those of `Deadline.courier`. -/
theorem run_keeps_accounts (rules : WalletRules) (actions : List Action)
    (hdeposits : (Unsigned.total (actions.map Action.accepted) : ℤ) ≤ signedMax)
    (hpayments : ∀ action ∈ actions, (action.demanded : ℤ) ≤ signedMax) :
    let w := (run ⟨rules, [], 0⟩ actions).1
    let records := (run ⟨rules, [], 0⟩ actions).2
    w.WellNumbered ∧
      (Unsigned.total (actions.map Action.accepted) : ℤ) =
        w.balance + Signed.total (records.map PaymentRecord.drain) ∧
      (∀ payments rate courier,
        let paid := w.withdrawWith (Courier.deliver courier) payments rate
        (paid.record.funding = .failed → paid.state = w) ∧
          (paid.record.funding ≠ .failed → ∃ spent, w.Spends rate paid spent)) ∧
      ∀ amount fault, w.deposit amount = .error fault →
        w.act (.deposit amount) = (w, []) := by
  intro w records
  have hfresh := wellNumbered_fresh rules
  have hw : w.WellNumbered := wellNumbered_run actions hfresh
  have hheld : (held (⟨rules, [], 0⟩ : Wallet).coins : ℤ) = 0 := rfl
  have hconserved := run_conserves actions hfresh (by omega) hpayments
  refine ⟨hw, ?_, ?_, ?_⟩
  · rw [hheld, zero_add] at hconserved
    exact hconserved
  · intro payments rate courier
    rcases withdrawWith_cases hw courier payments rate with
        ⟨hfailed, hstate⟩ | ⟨hpaid, hspends⟩
    · exact ⟨fun _ => hstate, fun hpaid => absurd hfailed hpaid⟩
    · exact ⟨fun hfailed => absurd hfailed hpaid, fun _ => hspends⟩
  · intro amount fault hfault
    simp only [act, hfault]

/-- A deposit of 100000 satoshis and a payment of 30000, searched for five
milliseconds. -/
def onePayment : List Action :=
  [.deposit 0.001,
    .withdraw [⟨30000, Script.numbered 9 0⟩] ⟨0⟩
      (Deadline.courier (Settings.limits {}) 5)]

theorem run_keeps_accounts_of_one_payment :
    (Unsigned.total (onePayment.map Action.accepted) : ℤ) ≤ signedMax ∧
      (∀ action ∈ onePayment, (action.demanded : ℤ) ≤ signedMax) ∧
      (100000 : ℤ) =
        (run ⟨⟨{}, ⟨2500⟩, 526, 10, 5, 0⟩, [], 0⟩ onePayment).1.balance +
          Signed.total
            ((run ⟨⟨{}, ⟨2500⟩, 526, 10, 5, 0⟩, [], 0⟩ onePayment).2.map
              PaymentRecord.drain) := by
  have hdeposits :
      (Unsigned.total (onePayment.map Action.accepted) : ℤ) = 100000 := by
    decide +kernel
  have hpayments : ∀ action ∈ onePayment,
      (action.demanded : ℤ) ≤ signedMax := by
    decide
  have hmax :
      (Unsigned.total (onePayment.map Action.accepted) : ℤ) ≤ signedMax := by
    rw [hdeposits]
    decide
  refine ⟨hmax, hpayments, ?_⟩
  rw [← hdeposits]
  exact (run_keeps_accounts ⟨{}, ⟨2500⟩, 526, 10, 5, 0⟩ onePayment hmax
    hpayments).2.1

end Wallet
end ExactSpend
