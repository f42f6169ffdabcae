import ExactSpend.Proofs.Wallet.Coins
import Mathlib.Data.List.Induction

/-!
# Choices of coins

Whatever coins a payment chooses, it may spend them, and they are worth the
target and the change.  Without change it chooses the first of the best subsets
within the tolerance.
-/

namespace ExactSpend
namespace Wallet

variable {w : Wallet} {rate : FeeRate} {target tolerance : ℤ}

/-! ## The first of the best -/

theorem isBetter_iff {a b : List ℕ × ℤ} :
    isBetter a b = true ↔
      a.1.length < b.1.length ∨ a.1.length = b.1.length ∧ a.2 < b.2 := by
  simp [isBetter]

/-- An entry that betters the best so far betters whatever is no better. -/
theorem isBetter_of_not_isBetter {a b c : List ℕ × ℤ}
    (hab : isBetter a b = true)
    (hcb : isBetter c b = false) : isBetter a c = true := by
  rw [← Bool.not_eq_true, isBetter_iff] at hcb
  rw [isBetter_iff] at hab ⊢
  omega

theorem not_isBetter_of_isBetter {a b : List ℕ × ℤ}
    (hab : isBetter a b = true) :
    isBetter b a = false := by
  rw [← Bool.not_eq_true, isBetter_iff]
  rw [isBetter_iff] at hab
  omega

/-- An entry of a list that betters all before it and is bettered by none
after. -/
def IsFirstBest (entries : List (List ℕ × ℤ)) (best : List ℕ × ℤ) : Prop :=
  ∃ before after, entries = before ++ best :: after ∧
    (∀ entry ∈ before, isBetter best entry = true) ∧
    ∀ entry ∈ after, isBetter entry best = false

theorem foldl_isFirstBest (first : List ℕ × ℤ) (rest : List (List ℕ × ℤ)) :
    IsFirstBest (first :: rest)
      (rest.foldl (fun best entry =>
        if isBetter entry best then entry else best) first) := by
  induction rest using List.reverseRecOn with
  | nil => exact ⟨[], [], rfl, by simp, by simp⟩
  | append_singleton rest entry ih =>
      rw [List.foldl_append, List.foldl_cons, List.foldl_nil]
      generalize rest.foldl (fun best entry =>
        if isBetter entry best then entry else best) first = best at ih ⊢
      obtain ⟨before, after, heq, hbefore, hafter⟩ := ih
      by_cases hbetter : isBetter entry best = true
      · rw [if_pos hbetter]
        refine ⟨first :: rest, [], rfl, ?_, by simp⟩
        rw [heq]
        intro other hother
        rcases List.mem_append.mp hother with hother | hother
        · exact isBetter_of_not_isBetter hbetter
            (not_isBetter_of_isBetter (hbefore other hother))
        · rcases List.mem_cons.mp hother with rfl | hother
          · exact hbetter
          · exact isBetter_of_not_isBetter hbetter (hafter other hother)
      · rw [if_neg hbetter]
        refine ⟨before, after ++ [entry], ?_, hbefore, ?_⟩
        · rw [← List.cons_append, heq, List.append_assoc, List.cons_append]
        · intro other hother
          rcases List.mem_append.mp hother with hother | hother
          · exact hafter other hother
          · rw [List.mem_singleton.mp hother]
            exact Bool.eq_false_iff.mpr hbetter

theorem isFirstBest_of_best? {entries : List (List ℕ × ℤ)} {best : List ℕ × ℤ}
    (h : best? entries = some best) : IsFirstBest entries best := by
  cases entries with
  | nil => cases h
  | cons first rest =>
      obtain rfl := Option.some.inj h
      exact foldl_isFirstBest first rest

theorem best?_isSome {entries : List (List ℕ × ℤ)} (h : entries ≠ []) :
    (best? entries).isSome = true := by
  cases entries with
  | nil => exact absurd rfl h
  | cons => rfl

/-! ## Without change -/

/-- A subset whose worth exceeds the target by at most the tolerance. -/
def Accepts (w : Wallet) (rate : FeeRate) (target tolerance : ℤ)
    (serials : List ℕ) : Prop :=
  0 ≤ w.worth rate serials - target ∧ w.worth rate serials - target ≤ tolerance

/-- Below the ceiling a subset is accepted exactly when its worth lies between
the target and the target plus the tolerance. -/
theorem accepts_iff {tolerance : ℕ} {serials : List ℕ} (htarget : 0 ≤ target)
    (hworth : w.worth rate serials ≤ signedMax) :
    w.Accepts rate target (Signed.ofCount tolerance) serials ↔
      target ≤ w.worth rate serials ∧
        w.worth rate serials ≤ target + tolerance := by
  unfold Accepts Signed.ofCount
  omega

/-- Of the subsets accepted, the one with the fewest coins, then with the
smallest worth, and the earliest of several such. -/
def IsPick (w : Wallet) (rate : FeeRate) (target tolerance : ℤ)
    (subsets : List (List ℕ)) (pick : List ℕ) : Prop :=
  ∃ before after, subsets = before ++ pick :: after ∧
    w.Accepts rate target tolerance pick ∧
    (∀ serials ∈ before, w.Accepts rate target tolerance serials →
      pick.length < serials.length ∨
        pick.length = serials.length ∧
          w.worth rate pick < w.worth rate serials) ∧
    ∀ serials ∈ after, w.Accepts rate target tolerance serials →
      pick.length < serials.length ∨
        pick.length = serials.length ∧ w.worth rate pick ≤ w.worth rate serials

theorem IsPick.mem {subsets : List (List ℕ)} {pick : List ℕ}
    (h : w.IsPick rate target tolerance subsets pick) : pick ∈ subsets := by
  obtain ⟨before, after, rfl, -⟩ := h
  exact List.mem_append_right before List.mem_cons_self

theorem IsPick.accepts {subsets : List (List ℕ)} {pick : List ℕ}
    (h : w.IsPick rate target tolerance subsets pick) :
    w.Accepts rate target tolerance pick := by
  obtain ⟨before, after, -, haccepts, -⟩ := h
  exact haccepts

theorem mem_withinTolerance {subsets : List (List ℕ)} {entry : List ℕ × ℤ} :
    entry ∈ w.withinTolerance rate target tolerance subsets ↔
      ∃ serials ∈ subsets, w.Accepts rate target tolerance serials ∧
        entry = (serials, w.worth rate serials - target) := by
  unfold withinTolerance Accepts
  rw [List.mem_filter, List.mem_map]
  constructor
  · rintro ⟨⟨serials, hserials, rfl⟩, hin⟩
    exact ⟨serials, hserials, of_decide_eq_true hin, rfl⟩
  · rintro ⟨serials, hserials, hin, rfl⟩
    exact ⟨⟨serials, hserials, rfl⟩, decide_eq_true hin⟩

/-- Where an entry stands among those accepted, its subset stands among all. -/
theorem exists_split_of_withinTolerance {subsets : List (List ℕ)}
    {pick : List ℕ} {excess : ℤ} {before after : List (List ℕ × ℤ)}
    (h : w.withinTolerance rate target tolerance subsets =
      before ++ (pick, excess) :: after) :
    ∃ front back, subsets = front ++ pick :: back ∧
      w.withinTolerance rate target tolerance front = before ∧
      w.withinTolerance rate target tolerance back = after := by
  unfold withinTolerance at h ⊢
  obtain ⟨entries, rest, hmap, hbefore, hrest⟩ := List.filter_eq_append_iff.mp h
  obtain ⟨skipped, rest', rfl, hskipped, -, hafter⟩ :=
    List.filter_eq_cons_iff.mp hrest
  rw [← List.append_assoc] at hmap
  obtain ⟨front, back, rfl, hfront, hback⟩ := List.map_eq_append_iff.mp hmap
  obtain ⟨pick', back', rfl, hpick, hback'⟩ := List.map_eq_cons_iff.mp hback
  obtain rfl : pick' = pick := congrArg Prod.fst hpick
  refine ⟨front, back', rfl, ?_, ?_⟩
  · rw [hfront, List.filter_append, hbefore,
      List.filter_eq_nil_iff.mpr hskipped, List.append_nil]
  · rw [hback', hafter]

theorem isPick_of_isFirstBest {subsets : List (List ℕ)}
    {pick : List ℕ} {excess : ℤ}
    (h : IsFirstBest (w.withinTolerance rate target tolerance subsets)
      (pick, excess)) :
    w.IsPick rate target tolerance subsets pick ∧
      excess = w.worth rate pick - target := by
  obtain ⟨before, after, heq, hbefore, hafter⟩ := h
  have hmem :
      (pick, excess) ∈ w.withinTolerance rate target tolerance subsets := by
    rw [heq]
    exact List.mem_append_right before List.mem_cons_self
  obtain ⟨serials, -, haccepts, hpair⟩ := mem_withinTolerance.mp hmem
  obtain ⟨rfl, rfl⟩ := Prod.mk.inj hpair
  obtain ⟨front, back, rfl, rfl, rfl⟩ := exists_split_of_withinTolerance heq
  refine ⟨⟨front, back, rfl, haccepts, ?_, ?_⟩, rfl⟩
  · intro serials hserials haccepts'
    have hbetter :=
      hbefore _ (mem_withinTolerance.mpr ⟨serials, hserials, haccepts', rfl⟩)
    rw [isBetter_iff] at hbetter
    simp only at hbetter
    omega
  · intro serials hserials haccepts'
    have hbetter :=
      hafter _ (mem_withinTolerance.mpr ⟨serials, hserials, haccepts', rfl⟩)
    rw [← Bool.not_eq_true, isBetter_iff] at hbetter
    simp only at hbetter
    omega

theorem changeless?_eq_some {subsets : List (List ℕ)} {choice : Choice}
    (h : w.changeless? rate target tolerance subsets = some choice) :
    ∃ pick, w.IsPick rate target tolerance subsets pick ∧
      choice = ⟨.changeless, pick, none,
        some (w.worth rate pick - target)⟩ := by
  unfold changeless? at h
  obtain ⟨⟨pick, excess⟩, hbest, rfl⟩ := Option.map_eq_some_iff.mp h
  obtain ⟨hpick, rfl⟩ := isPick_of_isFirstBest (isFirstBest_of_best? hbest)
  exact ⟨pick, hpick, rfl⟩

theorem changeless?_isSome {subsets : List (List ℕ)} {serials : List ℕ}
    (hserials : serials ∈ subsets)
    (h : w.Accepts rate target tolerance serials) :
    (w.changeless? rate target tolerance subsets).isSome = true := by
  rw [changeless?, Option.isSome_map]
  apply best?_isSome
  exact List.ne_nil_of_mem (mem_withinTolerance.mpr ⟨serials, hserials, h, rfl⟩)

/-! ## The largest coins -/

/-- The usable coins, the largest first. -/
def byWorth (w : Wallet) (rate : FeeRate) : List OwnedCoin :=
  (w.coins.filter fun c => 0 < c.coin.effectiveValue rate).mergeSort
    fun a b => decide (b.coin.effectiveValue rate ≤ a.coin.effectiveValue rate)

theorem largest_eq (w : Wallet) (rate : FeeRate) :
    w.largest rate = (w.byWorth rate).map fun c =>
      (c.serial, c.coin.effectiveValue rate) := by
  unfold largest byWorth
  rw [List.filter_map, List.map_mergeSort]
  · rfl
  · intro a _ b _
    rfl

/-- Coins are taken from the front, and short of the goal as many as there are
slots for. -/
theorem takeUntil_eq (rate : FeeRate) (goal : ℤ) (coins : List OwnedCoin) :
    ∀ (slots : ℕ) (value : ℤ), ∃ n ≤ slots,
      takeUntil goal slots value
          (coins.map fun c => (c.serial, c.coin.effectiveValue rate)) =
        ((coins.take n).map (·.serial), value + effective rate (coins.take n)) ∧
      (value + effective rate (coins.take n) < goal →
        coins.take n = coins.take slots) := by
  induction coins with
  | nil =>
      intro slots value
      refine ⟨0, Nat.zero_le slots, ?_, by simp⟩
      cases slots <;> simp [takeUntil, effective]
  | cons c coins ih =>
      intro slots value
      cases slots with
      | zero => exact ⟨0, le_rfl, by simp [takeUntil, effective], fun _ => rfl⟩
      | succ slots =>
          rw [List.map_cons, takeUntil]
          by_cases hreached : goal ≤ value
          · rw [if_pos hreached]
            refine ⟨0, Nat.zero_le _, by simp [effective], fun hshort => ?_⟩
            simp only [List.take_zero, effective, List.map_nil,
              Signed.total_nil] at hshort
            omega
          · obtain ⟨n, hn, heq, hall⟩ :=
              ih slots (value + c.coin.effectiveValue rate)
            have hworth : effective rate ((c :: coins).take (n + 1)) =
                c.coin.effectiveValue rate +
                  effective rate (coins.take n) := rfl
            refine ⟨n + 1, Nat.succ_le_succ hn, ?_, fun hshort => ?_⟩
            · rw [if_neg hreached, heq, hworth, add_assoc]
              rfl
            · rw [hworth, ← add_assoc] at hshort
              rw [List.take_succ_cons, List.take_succ_cons, hall hshort]

theorem spendable_take (w : Wallet) (rate : FeeRate)
    (hw : w.WellNumbered) {n : ℕ} (hn : n ≤ w.rules.inputLimit) :
    w.Spendable rate ((w.byWorth rate).take n) := by
  have hperm : (w.byWorth rate).Perm
      (w.coins.filter fun c => 0 < c.coin.effectiveValue rate) :=
        List.mergeSort_perm _ _
  have hmem : ∀ c ∈ (w.byWorth rate).take n, c ∈ w.coins ∧
      0 < c.coin.effectiveValue rate := by
    intro c hc
    have hc' := hperm.mem_iff.mp (List.mem_of_mem_take hc)
    exact ⟨List.mem_of_mem_filter hc',
      of_decide_eq_true (List.mem_filter.mp hc').2⟩
  refine ⟨?_, fun c hc => (hmem c hc).1, fun c hc => (hmem c hc).2, ?_⟩
  · exact (List.take_sublist n _).nodup
      (hperm.nodup_iff.mpr (hw.coins_nodup.filter _))
  · exact (List.length_take_le n _).trans hn

end Wallet

/-- What a choice does with the excess of its coins over the target.  Without
change the excess is within the tolerance and recorded; otherwise it pays for a
change output and the change, unless the change would be dust. -/
inductive Choice.Leaves (w : Wallet) (rate : FeeRate)
    (tolerance excess : ℤ) : Choice → Prop
  | changeless (serials : List ℕ) (hlow : 0 ≤ excess)
      (hhigh : excess ≤ tolerance) :
      Leaves w rate tolerance excess ⟨.changeless, serials, none, some excess⟩
  | withChange (serials : List ℕ) (v : ℕ)
      (hexcess : excess = (Wallet.changeOutputCost rate : ℤ) + v) :
      Leaves w rate tolerance excess ⟨.largestFirst, serials, some v, none⟩
  | withoutChange (serials : List ℕ) (hlow : 0 ≤ excess)
      (hdust : excess < (Wallet.changeOutputCost rate : ℤ) +
        w.rules.dustLimit) :
      Leaves w rate tolerance excess ⟨.largestFirst, serials, none, none⟩

namespace Choice.Leaves

variable {w : Wallet} {rate : FeeRate} {tolerance excess : ℤ} {choice : Choice}

theorem change_add_le (h : choice.Leaves w rate tolerance excess) :
    (choice.change.getD 0 : ℕ) +
      ((if choice.change.isSome then Wallet.changeOutputCost rate else 0 : ℕ) :
        ℤ) ≤ excess := by
  cases h with
  | changeless serials hlow => exact hlow
  | withChange serials v hexcess =>
      exact le_of_eq ((Int.add_comm _ _).trans hexcess.symm)
  | withoutChange serials hlow => exact hlow

theorem change_le (h : choice.Leaves w rate tolerance excess) :
    (choice.change.getD 0 : ℕ) ≤ excess :=
  (le_add_of_nonneg_right (Int.natCast_nonneg _)).trans h.change_add_le

theorem funding_ne (h : choice.Leaves w rate tolerance excess) :
    choice.funding ≠ .failed := by
  cases h <;> simp

theorem of_changeless (h : choice.Leaves w rate tolerance excess)
    (hfunding : choice.funding = .changeless) :
    choice.change = none ∧ choice.overpayment = some excess ∧ 0 ≤ excess ∧
      excess ≤ tolerance := by
  cases h with
  | changeless serials hlow hhigh => exact ⟨rfl, rfl, hlow, hhigh⟩
  | withChange => cases hfunding
  | withoutChange => cases hfunding

theorem of_change {v : ℕ} (h : choice.Leaves w rate tolerance excess)
    (hchange : choice.change = some v) :
    excess = (Wallet.changeOutputCost rate : ℤ) + v := by
  cases h with
  | changeless => cases hchange
  | withChange serials v' hexcess =>
      obtain rfl := Option.some.inj hchange
      exact hexcess
  | withoutChange => cases hchange

theorem of_dust (h : choice.Leaves w rate tolerance excess)
    (hfunding : choice.funding = .largestFirst)
    (hchange : choice.change = none) :
    0 ≤ excess ∧ excess < (Wallet.changeOutputCost rate : ℤ) +
      w.rules.dustLimit := by
  cases h with
  | changeless => cases hfunding
  | withChange => cases hchange
  | withoutChange serials hlow hdust => exact ⟨hlow, hdust⟩

end Choice.Leaves

/-- The coins chosen may be spent, and they are worth the target and the
change. -/
structure Choice.Funds (choice : Choice) (w : Wallet)
    (rate : FeeRate) (target : ℤ) (picks : List OwnedCoin) : Prop where
  serials_eq : choice.serials = picks.map (·.serial)
  spendable : w.Spendable rate picks
  covers : target + (choice.change.getD 0 : ℕ) ≤ Wallet.effective rate picks
  funding_ne : choice.funding ≠ .failed

namespace Wallet

variable {w : Wallet} {rate : FeeRate} {target tolerance : ℤ}

/-- The largest coins are chosen unless even as many as may be spent are worth
less than the target. -/
theorem largestFirst?_cases (w : Wallet) (rate : FeeRate)
    (target tolerance : ℤ) :
    w.largestFirst? rate target = none ∧
        effective rate ((w.byWorth rate).take w.rules.inputLimit) < target ∨
      ∃ n ≤ w.rules.inputLimit, ∃ choice,
        w.largestFirst? rate target = some choice ∧
        choice.funding = .largestFirst ∧
        choice.serials = ((w.byWorth rate).take n).map (·.serial) ∧
        choice.Leaves w rate tolerance
          (effective rate ((w.byWorth rate).take n) - target) := by
  obtain ⟨n, hn, heq, hall⟩ :=
    takeUntil_eq rate (target + changeOutputCost rate)
    (w.byWorth rate) w.rules.inputLimit 0
  rw [zero_add] at heq hall
  rw [largestFirst?, largest_eq]
  simp only [heq]
  by_cases hshort : effective rate ((w.byWorth rate).take n) < target
  · left
    rw [if_pos hshort]
    refine ⟨rfl, ?_⟩
    rwa [← hall (by omega)]
  · right
    rw [if_neg hshort]
    refine ⟨n, hn, _, rfl, rfl, rfl, ?_⟩
    split
    · exact .withChange _ _ (by omega)
    · exact .withoutChange _ (by omega) (by omega)

/-- What a choice leaves is what its coins are worth beyond the target. -/
theorem largestFirst?_leaves (hw : w.WellNumbered) {choice : Choice}
    (h : w.largestFirst? rate target = some choice) :
    choice.Leaves w rate tolerance (w.worth rate choice.serials - target) := by
  rcases w.largestFirst?_cases rate target tolerance with
    ⟨hnone, -⟩ | ⟨n, hn, choice', hsome, -, hserials, hleaves⟩
  · cases hnone.symm.trans h
  · obtain rfl := Option.some.inj (hsome.symm.trans h)
    rwa [hserials, worth_serials hw (w.spendable_take rate hw hn)]

theorem largestFirst?_funds (hw : w.WellNumbered) {choice : Choice}
    (h : w.largestFirst? rate target = some choice) :
    choice.funding = .largestFirst ∧ ∃ picks,
      choice.Funds w rate target picks := by
  rcases w.largestFirst?_cases rate target 0 with
    ⟨hnone, -⟩ | ⟨n, hn, choice', hsome, hfunding, hserials, hleaves⟩
  · cases hnone.symm.trans h
  · obtain rfl := Option.some.inj (hsome.symm.trans h)
    refine ⟨hfunding, (w.byWorth rate).take n, hserials,
      w.spendable_take rate hw hn, ?_, hleaves.funding_ne⟩
    have hchange := hleaves.change_le
    omega

theorem choose?_cases {subsets : List (List ℕ)} {choice : Choice}
    (h : w.choose? rate target tolerance subsets = some choice) :
    w.changeless? rate target tolerance subsets = some choice ∨
      w.changeless? rate target tolerance subsets = none ∧
        w.largestFirst? rate target = some choice := by
  rw [choose?] at h
  cases hchangeless : w.changeless? rate target tolerance subsets with
  | some choice' =>
      left
      simpa [hchangeless] using h
  | none =>
      right
      simpa [hchangeless] using h

theorem choose?_leaves (hw : w.WellNumbered) {subsets : List (List ℕ)}
    {choice : Choice}
    (h : w.choose? rate target tolerance subsets = some choice) :
    choice.Leaves w rate tolerance (w.worth rate choice.serials - target) := by
  rcases choose?_cases h with hchangeless | ⟨-, hlargest⟩
  · obtain ⟨pick, hpick, rfl⟩ := changeless?_eq_some hchangeless
    exact .changeless pick hpick.accepts.1 hpick.accepts.2
  · exact largestFirst?_leaves hw hlargest

/-- Whatever is chosen may be spent and covers what it has to. -/
theorem choose?_funds (hw : w.WellNumbered) {subsets : List (List ℕ)}
    (hsubsets : ∀ serials ∈ subsets, ∃ picks, w.Spendable rate picks ∧
      serials = picks.map (·.serial)) {choice : Choice}
    (h : w.choose? rate target tolerance subsets = some choice) :
    ∃ picks, choice.Funds w rate target picks := by
  rcases choose?_cases h with hchangeless | ⟨-, hlargest⟩
  · obtain ⟨pick, hpick, rfl⟩ := changeless?_eq_some hchangeless
    obtain ⟨picks, hpicks, rfl⟩ := hsubsets pick hpick.mem
    refine ⟨picks, rfl, hpicks, ?_, by simp⟩
    have hworth := worth_serials hw hpicks
    have hlow := hpick.accepts.1
    simp only [Option.getD_none]
    omega
  · exact (largestFirst?_funds hw hlargest).2

end Wallet
end ExactSpend
