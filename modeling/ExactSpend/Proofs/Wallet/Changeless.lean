import ExactSpend.Proofs.Wallet.History
import Mathlib

/-!
# Payments without change

When the searches for a payment are left to end, it is paid without change
exactly when some coins meet its target within the tolerance.  The wallet and
the searches each test the tolerance, the one as an excess over the target and
the others as a band with an upper edge; below the ceiling both tests agree.
-/

namespace ExactSpend
namespace Wallet

variable {w : Wallet} {rate : FeeRate} {deliver : List Task → Delivery}

theorem choose?_changeless_iff {target tolerance : ℤ} {subsets : List (List ℕ)}
    {choice : Choice} (hw : w.WellNumbered)
    (h : w.choose? rate target tolerance subsets = some choice) :
    choice.funding = .changeless ↔
      w.changeless? rate target tolerance subsets = some choice := by
  rcases choose?_cases h with hchangeless | ⟨hnone, hlargest⟩
  · obtain ⟨pick, -, rfl⟩ := changeless?_eq_some hchangeless
    simp [hchangeless]
  · simp [hnone, (largestFirst?_funds hw hlargest).1]

theorem exists_pick_of_funding (hw : w.WellNumbered) {first : Payment}
    {rest : List Payment}
    (hfunding : (w.withdrawWith deliver (first :: rest) rate).record.funding =
      .changeless) :
    ∃ pick record notices,
      w.IsPick rate ((combined first rest rate).target rate)
        (Signed.ofCount (w.tolerance rate))
          (yields deliver w (combined first rest rate) rate) pick ∧
        w.withdrawWith deliver (first :: rest) rate =
          { w.settle (first :: rest) rate record
              ⟨.changeless, pick, none,
                some (w.worth rate pick -
                  (combined first rest rate).target rate)⟩ with
            notices } := by
  cases h : w.chosen deliver first rest rate with
  | none =>
      rw [(withdrawWith_of_none h).2] at hfunding
      cases hfunding
  | some choice =>
      obtain ⟨record, notices, heq⟩ := withdrawWith_of_some h
      rw [heq] at hfunding
      obtain ⟨pick, hpick, rfl⟩ :=
        changeless?_eq_some ((choose?_changeless_iff hw h).mp hfunding)
      exact ⟨pick, record, notices, hpick, heq⟩

/-- A payment goes without change exactly when a subset yielded is accepted. -/
theorem funding_changeless_iff (hw : w.WellNumbered) (first : Payment)
    (rest : List Payment) :
    (w.withdrawWith deliver (first :: rest) rate).record.funding = .changeless ↔
      ∃ serials ∈ yields deliver w (combined first rest rate) rate,
        w.Accepts rate ((combined first rest rate).target rate)
          (Signed.ofCount (w.tolerance rate)) serials := by
  constructor
  · intro hfunding
    obtain ⟨pick, -, -, hpick, -⟩ := exists_pick_of_funding hw hfunding
    exact ⟨pick, hpick.mem, hpick.accepts⟩
  · rintro ⟨serials, hserials, haccepts⟩
    obtain ⟨choice, hchoice⟩ :=
      Option.isSome_iff_exists.mp (changeless?_isSome hserials haccepts)
    have h : w.chosen deliver first rest rate = some choice := by
      rw [chosen, choose?, hchoice]
      rfl
    obtain ⟨record, notices, heq⟩ := withdrawWith_of_some h
    rw [heq]
    exact (choose?_changeless_iff hw h).mpr hchoice

/-- A subset that is picked is spent as it stands. -/
theorem settle_spends_pick (hw : w.WellNumbered) {target : ℤ}
    (htarget : 0 ≤ target)
    {picks : List OwnedCoin} (hpicks : w.Spendable rate picks)
    (hcovers : target ≤ effective rate picks) (payments : List Payment)
    (record : PaymentRecord) (excess : ℤ) :
    w.Spends rate (w.settle payments rate record
      ⟨.changeless, picks.map (·.serial), none, some excess⟩)
        (w.split (picks.map (·.serial))).1 := by
  rw [split_fst_eq_filter hw hpicks.mem]
  apply settle_spends hw htarget
  refine ⟨rfl, hpicks, ?_, by simp⟩
  simpa using hcovers

/-- Both tests of the tolerance agree on coins that may be spent. -/
theorem accepts_serials_iff (hw : w.WellNumbered)
    (hbalance : (w.balance : ℤ) ≤ signedMax)
    {target : ℤ} (htarget : 0 ≤ target) {picks : List OwnedCoin}
    (hpicks : w.Spendable rate picks) :
    w.Accepts rate target (Signed.ofCount (w.tolerance rate))
      (picks.map (·.serial)) ↔
      target ≤ effective rate picks ∧
        effective rate picks ≤ target + w.tolerance rate := by
  have hworth := worth_serials hw hpicks
  have hmax : w.worth rate (picks.map (·.serial)) ≤ signedMax := by
    rw [hworth]
    exact (hpicks.effective_le_balance hw).trans hbalance
  rw [accepts_iff htarget hmax, hworth]

/-- Searches left to end yield an accepted subset whenever some coins meet the
target within the tolerance. -/
theorem exists_accepted_of_spendable (hw : w.WellNumbered)
    (hbalance : (w.balance : ℤ) ≤ signedMax) {payment : Payment}
    (htarget : 0 < payment.target rate)
    (hfull : (deliver (w.request payment rate).plan.tasks).IsFull
      w.rules.settings.limits (w.request payment rate).plan.tasks)
    (hbudget : ∀ t ∈ (w.request payment rate).plan.tasks, t.group = .allCoins →
      t.goal.side = .more →
        (t.goal.search w.rules.settings.limits fun _ => false).ending ≠
          .budgetSpent)
    {picks : List OwnedCoin} (hpicks : w.Spendable rate picks)
    (hlow : payment.target rate ≤ effective rate picks)
    (hhigh : effective rate picks ≤ payment.target rate + w.tolerance rate) :
    ∃ serials ∈ yields deliver w payment rate,
      w.Accepts rate (payment.target rate)
        (Signed.ofCount (w.tolerance rate)) serials := by
  obtain ⟨indices, hindices⟩ := exists_indices hpicks.mem
  have haffords : (w.request payment rate).Affords indices :=
    (hindices.affords_iff hw).mpr hpicks
  have hworth : (w.request payment rate).worth indices = effective rate picks :=
    hindices.worth_eq
  have hmax := (hpicks.effective_le_balance hw).trans hbalance
  obtain ⟨subset, hsubset, hlow', hhigh'⟩ :=
    Request.exists_harvest_inBand hfull hbudget htarget haffords (hworth ▸ hmax)
      (hworth ▸ hlow) (hworth ▸ hhigh)
  -- What was harvested need not be the coins we know of, only some as good.
  obtain ⟨picks', hcoins, hpicks'⟩ :=
    exists_spendable hw (Request.affords_of_mem_harvest hfull.answers hsubset)
  rw [hcoins.worth_eq] at hlow' hhigh'
  refine ⟨w.serialsAt subset, List.mem_map_of_mem hsubset, ?_⟩
  rw [hcoins.serialsAt_eq,
    accepts_serials_iff hw hbalance (le_of_lt htarget) hpicks']
  exact ⟨hlow', hhigh'⟩

/-- A payment whose searches arrive in full, in whatever order, and whose search
over all coins from above does not run out of iterations, goes without change
exactly when some coins meet its target within the tolerance.  It then spends
the subset yielded that has the fewest coins, then the smallest excess, the
earliest of several such, and the excess is recorded.  A wallet's own deadline
delivers in full when every search meets it: `Deadline.isFull_of_isComplete`. -/
theorem withdrawWith_changeless_iff (hreach : w.Reachable)
    (hbalance : (w.balance : ℤ) ≤ signedMax) (first : Payment)
    (rest : List Payment) (htarget : 0 < (combined first rest rate).target rate)
    (hfull :
      (deliver (w.request (combined first rest rate) rate).plan.tasks).IsFull
        w.rules.settings.limits
        (w.request (combined first rest rate) rate).plan.tasks)
    (hbudget : ∀ t ∈ (w.request (combined first rest rate) rate).plan.tasks,
      t.group = .allCoins → t.goal.side = .more →
        (t.goal.search w.rules.settings.limits fun _ => false).ending ≠
          .budgetSpent) :
    let target := (combined first rest rate).target rate
    let paid := w.withdrawWith deliver (first :: rest) rate
    (paid.record.funding = .changeless ↔
        ∃ picks, w.Spendable rate picks ∧ target ≤ effective rate picks ∧
          effective rate picks ≤ target + w.tolerance rate) ∧
      (paid.record.funding = .changeless → ∃ pick,
        w.IsPick rate target (Signed.ofCount (w.tolerance rate))
            (yields deliver w (combined first rest rate) rate) pick ∧
          (w.split pick).1.length = pick.length ∧
            w.Spends rate paid (w.split pick).1 ∧
          paid.record.change = none ∧
          paid.record.overpayment =
            some (effective rate (w.split pick).1 - target)) := by
  intro target paid
  have hw := hreach.wellNumbered
  refine ⟨⟨?_, ?_⟩, ?_⟩
  · intro hfunding
    obtain ⟨serials, hserials, haccepts⟩ :=
      (funding_changeless_iff hw first rest).mp hfunding
    obtain ⟨picks, hpicks, rfl⟩ :=
      spendable_of_mem_yields hw hfull.answers hserials
    rw [accepts_serials_iff hw hbalance (le_of_lt htarget) hpicks] at haccepts
    exact ⟨picks, hpicks, haccepts⟩
  · rintro ⟨picks, hpicks, hlow, hhigh⟩
    apply (funding_changeless_iff hw first rest).mpr
    exact exists_accepted_of_spendable hw hbalance htarget hfull hbudget
      hpicks hlow hhigh
  · intro hfunding
    obtain ⟨pick, record, notices, hpick, heq⟩ :=
      exists_pick_of_funding hw hfunding
    change paid = _ at heq
    obtain ⟨picks, hpicks, rfl⟩ :=
      spendable_of_mem_yields hw hfull.answers hpick.mem
    have hworth := worth_serials hw hpicks
    have hlow := hpick.accepts.1
    have hspends :=
      settle_spends_pick hw (le_of_lt htarget) hpicks (by omega) (first :: rest)
      record (w.worth rate (picks.map (·.serial)) - target)
    have hperm := filter_mem_perm hw hpicks.nodup hpicks.mem
    refine ⟨picks.map (·.serial), hpick, ?_, ?_, ?_, ?_⟩
    · rw [split_fst_eq_filter hw hpicks.mem, hperm.length_eq, List.length_map]
    · rw [heq]
      exact { hspends with }
    · rw [heq]
      rfl
    · rw [heq]
      rfl

/-- A wallet after deposits of 60000, 25000 and 40000 satoshis. -/
def ofThreeDeposits : Wallet where
  rules := ⟨{}, ⟨2500⟩, 526, 10, 5, 0⟩
  coins := [⟨0, .ofScript 60000 (.numbered depositTag 0)⟩,
    ⟨1, .ofScript 25000 (.numbered depositTag 1)⟩,
      ⟨2, .ofScript 40000 (.numbered depositTag 2)⟩]
  received := 3

theorem ofThreeDeposits_reachable : ofThreeDeposits.Reachable :=
  ⟨⟨{}, ⟨2500⟩, 526, 10, 5, 0⟩,
    [.deposit 0.0006, .deposit 0.00025, .deposit 0.0004], by decide +kernel⟩

theorem withdraw_changeless_of_three_deposits :
    ofThreeDeposits.Reachable ∧ (ofThreeDeposits.balance : ℤ) ≤ signedMax ∧
      0 < (combined ⟨100000, .numbered 9 0⟩ [] ⟨0⟩).target ⟨0⟩ ∧
      (ofThreeDeposits.withdraw [⟨100000, .numbered 9 0⟩] ⟨0⟩).record.funding =
        .changeless := by
  have hreach := ofThreeDeposits_reachable
  have hbalance : (ofThreeDeposits.balance : ℤ) ≤ signedMax := by decide
  have htarget : 0 < (combined ⟨100000, .numbered 9 0⟩ [] ⟨0⟩).target ⟨0⟩ := by
    decide
  have hcomplete : (Deadline.deliver ofThreeDeposits.rules.settings.limits 5
      (ofThreeDeposits.request (combined ⟨100000, .numbered 9 0⟩ [] ⟨0⟩)
        ⟨0⟩).plan.tasks).isComplete = true := by cbv
  have hbudget :
      ((ofThreeDeposits.request (combined ⟨100000, .numbered 9 0⟩ [] ⟨0⟩)
          ⟨0⟩).plan.tasks.all fun t =>
        (t.goal.search ofThreeDeposits.rules.settings.limits
          fun _ => false).ending != .budgetSpent) = true := by cbv
  have hpicks : ofThreeDeposits.Spendable ⟨0⟩
      [⟨0, .ofScript 60000 (.numbered depositTag 0)⟩,
        ⟨2, .ofScript 40000 (.numbered depositTag 2)⟩] := by
    refine ⟨?_, ?_, ?_, ?_⟩ <;> decide
  have hiff :=
    (withdrawWith_changeless_iff hreach hbalance ⟨100000, .numbered 9 0⟩ []
      htarget (Deadline.isFull_of_isComplete hcomplete) fun t ht _ _ =>
        bne_iff_ne.mp (List.all_eq_true.mp hbudget t ht)).1
  exact ⟨hreach, hbalance, htarget, hiff.mpr ⟨_, hpicks, by decide, by decide⟩⟩

end Wallet
end ExactSpend
