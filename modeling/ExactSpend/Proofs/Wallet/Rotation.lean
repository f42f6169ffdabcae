import ExactSpend.Proofs.Wallet.History
import Mathlib.Data.Nat.ModEq

/-!
# Scripts of deposits

A wallet that reuses scripts picks the one for a deposit by the number of coins
received so far, and change outputs count among these.  So deposits go round the
scripts as long as no change is received, and every change output makes the next
deposit skip a script.
-/

namespace ExactSpend

/-! ## Numbered scripts -/

namespace Script

theorem littleEndian_inj (n : ℕ) : ∀ {x y : ℕ}, x < 256 ^ n → y < 256 ^ n →
    littleEndian n x = littleEndian n y → x = y := by
  induction n with
  | zero =>
      intro x y hx hy _
      omega
  | succ n ih =>
      intro x y hx hy h
      rw [pow_succ] at hx hy
      obtain ⟨hlow, hhigh⟩ := List.cons.inj h
      have hhigh' := ih (Nat.div_lt_of_lt_mul (by omega))
        (Nat.div_lt_of_lt_mul (by omega)) hhigh
      have hlow' : x % 256 = y % 256 := by simpa using congrArg UInt8.toNat hlow
      omega

/-- Scripts of one tag are as distinct as their indices. -/
theorem numbered_inj {tag : UInt8} {i j : ℕ} (hi : i ≤ unsignedMax)
    (hj : j ≤ unsignedMax) (h : numbered tag i = numbered tag j) : i = j := by
  have hbytes : littleEndian 8 i = littleEndian 8 j := by
    simpa [numbered] using h
  rw [unsignedMax] at hi hj
  exact littleEndian_inj 8 (by omega) (by omega) hbytes

end Script

/-- Whether the action is a deposit that is accepted. -/
def Action.isAccepted : Action → Bool
  | deposit amount => (Amount.ofBitcoin amount).isOk
  | withdraw _ _ _ => false

namespace Wallet

variable {w : Wallet} {rate : FeeRate}

/-! ## Coins received -/

theorem act_deposit_of_accepted {amount : Float}
    (h : (Action.deposit amount).isAccepted = true) (w : Wallet) :
    w.act (.deposit amount) =
      (w.receive (Action.deposit amount).accepted w.depositScript, []) := by
  cases hread : Amount.ofBitcoin amount with
  | ok satoshis => simp [act, deposit, Action.accepted, hread, Except.toOption]
  | error cause =>
      simp [Action.isAccepted, hread, Except.isOk, Except.toBool] at h

theorem act_deposit_of_refused {amount : Float}
    (h : (Action.deposit amount).isAccepted = false)
    (w : Wallet) : w.act (.deposit amount) = (w, []) := by
  cases hread : Amount.ofBitcoin amount with
  | ok satoshis =>
      simp [Action.isAccepted, hread, Except.isOk, Except.toBool] at h
  | error cause => simp [act, deposit, hread]

theorem change_of_none {deliver : List Task → Delivery} {first : Payment}
    {rest : List Payment} (h : w.chosen deliver first rest rate = none) :
    (w.withdrawWith deliver (first :: rest) rate).record.change = none := by
  unfold chosen yields at h
  simp only [withdrawWith, h]
  rfl

/-- A withdrawal receives its change and nothing else. -/
theorem withdrawWith_received (hw : w.WellNumbered) (courier : Courier)
    (payments : List Payment) (rate : FeeRate) :
    (w.withdrawWith courier.deliver payments rate).state.received = w.received +
        (w.withdrawWith courier.deliver payments
          rate).record.change.toList.length ∧
      (w.withdrawWith courier.deliver payments rate).state.rules = w.rules := by
  rcases withdrawWith_cases hw courier payments rate with
      ⟨hfailed, hstate⟩ | ⟨-, spent, hspends⟩
  · cases payments with
    | nil => exact ⟨rfl, rfl⟩
    | cons first rest =>
        cases hchosen : w.chosen courier.deliver first rest rate with
        | none =>
            rw [hstate, change_of_none hchosen]
            exact ⟨rfl, rfl⟩
        | some choice =>
            obtain ⟨picks, hfunds⟩ := exists_funds_of_chosen hw courier hchosen
            obtain ⟨record, notices, heq⟩ := withdrawWith_of_some hchosen
            rw [heq] at hfailed
            exact absurd hfailed hfunds.funding_ne
  · exact ⟨hspends.received_eq, hspends.rules_eq⟩

/-- The number of change outputs that some payments made. -/
def changeCount (records : List PaymentRecord) : ℕ :=
  records.countP (·.change.isSome)

theorem changeCount_append (records more : List PaymentRecord) :
    changeCount (records ++ more) = changeCount records + changeCount more :=
  List.countP_append

theorem changeCount_singleton (record : PaymentRecord) :
    changeCount [record] = record.change.toList.length := by
  rw [changeCount, List.countP_singleton]
  cases record.change <;> rfl

theorem act_received (hw : w.WellNumbered) (action : Action) :
    (w.act action).1.received = w.received + [action].countP Action.isAccepted +
        changeCount (w.act action).2 ∧
      (w.act action).1.rules = w.rules := by
  cases action with
  | deposit amount =>
      cases haccepted : (Action.deposit amount).isAccepted with
      | true =>
          rw [act_deposit_of_accepted haccepted, List.countP_singleton,
            if_pos haccepted]
          exact ⟨rfl, rfl⟩
      | false =>
          rw [act_deposit_of_refused haccepted, List.countP_singleton,
            if_neg (by simp [haccepted])]
          exact ⟨rfl, rfl⟩
  | withdraw payments rate courier =>
      obtain ⟨hreceived, hrules⟩ :=
        withdrawWith_received hw courier payments rate
      refine ⟨?_, hrules⟩
      rw [act, changeCount_singleton]
      exact hreceived

/-- A wallet numbers its coins through: every deposit that it accepts and every
change output takes one number. -/
theorem run_received (actions : List Action) : ∀ {w : Wallet}, w.WellNumbered →
    (w.run actions).1.received = w.received + actions.countP Action.isAccepted +
        changeCount (w.run actions).2 ∧
      (w.run actions).1.rules = w.rules := by
  induction actions with
  | nil => exact fun _ => ⟨rfl, rfl⟩
  | cons action rest ih =>
      intro w hw
      obtain ⟨hreceived, hrules⟩ := act_received hw action
      obtain ⟨hreceived', hrules'⟩ := ih (wellNumbered_act hw action)
      rw [run, changeCount_append, ← List.singleton_append, List.countP_append]
      refine ⟨?_, hrules'.trans hrules⟩
      simp only
      omega

/-! ## The round of the scripts -/

/-- Of two numbers a round of `k` scripts gives the same script if they lie
whole rounds apart. -/
theorem add_mod_eq_mod_iff {i n k : ℕ} : (i + n) % k = i % k ↔ k ∣ n := by
  have hmod :=
    (Nat.modEq_iff_dvd' (Nat.le_add_right i n) : i ≡ i + n [MOD k] ↔ _)
  rw [Nat.add_sub_cancel_left] at hmod
  exact eq_comm.trans hmod

/-- The script of an accepted deposit into a wallet that reuses scripts goes
round with the deposits accepted before and the change outputs received before.
So it is the one that the deposits alone lead to exactly when the change outputs
make whole rounds. -/
theorem deposit_script_of_reuse (rules : WalletRules) (actions : List Action)
    (amount : Float) (hreuse : 0 < rules.addressReuse)
    (hword : rules.addressReuse ≤ unsignedMax)
    (haccepted : (Action.deposit amount).isAccepted = true) :
    let w := (run ⟨rules, [], 0⟩ actions).1
    let deposits := actions.countP Action.isAccepted
    let changes := changeCount (run ⟨rules, [], 0⟩ actions).2
    ∃ c, (w.act (.deposit amount)).1.coins = w.coins ++ [c] ∧
      c.coin.script =
        Script.numbered depositTag ((deposits + changes) % rules.addressReuse) ∧
      (c.coin.script =
          Script.numbered depositTag (deposits % rules.addressReuse) ↔
        rules.addressReuse ∣ changes) := by
  intro w deposits changes
  obtain ⟨hreceived, hrules⟩ := run_received actions (wellNumbered_fresh rules)
  have hcount : w.received = deposits + changes := by
    rw [hreceived, Nat.zero_add]
  have hscript : w.depositScript =
      Script.numbered depositTag
        ((deposits + changes) % rules.addressReuse) := by
    rw [depositScript, hrules, if_neg hreuse.ne', hcount]
  have hbound (n : ℕ) : n % rules.addressReuse ≤ unsignedMax :=
    (Nat.mod_lt n hreuse).le.trans hword
  rw [act_deposit_of_accepted haccepted]
  refine ⟨_, rfl, hscript, ?_⟩
  change w.depositScript = _ ↔ _
  rw [hscript, ← add_mod_eq_mod_iff (i := deposits)]
  exact ⟨Script.numbered_inj (hbound _) (hbound _), congrArg _⟩

/-- A wallet with two scripts for deposits. -/
def twoScripts : WalletRules :=
  ⟨{}, ⟨2500⟩, 526, 10, 5, 2⟩

/-- A deposit of 100000 satoshis and a payment of 30000, which leaves change. -/
def onceChanged : List Action :=
  [.deposit 0.001,
    .withdraw [⟨30000, Script.numbered 9 0⟩] ⟨0⟩
      (Deadline.courier (Settings.limits {}) 5)]

theorem deposit_script_of_once_changed :
    0 < twoScripts.addressReuse ∧ twoScripts.addressReuse ≤ unsignedMax ∧
      (Action.deposit 0.002).isAccepted = true ∧
      ∃ c,
        ((run ⟨twoScripts, [], 0⟩ onceChanged).1.act (.deposit 0.002)).1.coins =
          (run ⟨twoScripts, [], 0⟩ onceChanged).1.coins ++ [c] ∧
        c.coin.script = Script.numbered depositTag ((1 + 1) % 2) := by
  have haccepted : (Action.deposit 0.002).isAccepted = true := by decide +kernel
  have hdeposits : onceChanged.countP Action.isAccepted = 1 := by decide +kernel
  have hchanges : changeCount (run ⟨twoScripts, [], 0⟩ onceChanged).2 = 1 := by
    decide +kernel
  obtain ⟨c, hcoins, hscript, -⟩ :=
    deposit_script_of_reuse twoScripts onceChanged 0.002 (by decide)
      (by decide) haccepted
  rw [hdeposits, hchanges] at hscript
  exact ⟨by decide, by decide, haccepted, c, hcoins, hscript⟩

/-- The second deposit is received on the first script again and not on the
second one, because the change output between the two has taken its turn. -/
theorem deposit_script_repeats_once_changed :
    onceChanged.countP Action.isAccepted = 1 ∧
      ((run ⟨twoScripts, [], 0⟩ onceChanged).1.act (.deposit 0.002)).1.coins.map
          (·.coin.script) =
        [Script.numbered changeTag 1, Script.numbered depositTag 0] ∧
      Script.numbered depositTag 0 ≠
        Script.numbered depositTag (1 % twoScripts.addressReuse) := by
  refine ⟨?_, ?_, ?_⟩ <;> decide +kernel

end Wallet
end ExactSpend
