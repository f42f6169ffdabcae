import ExactSpend.Proofs.Plan.Candidates
import ExactSpend.Proofs.Search.Fallback

/-!
# Groups that are left out

Two shares of the target decide about a group.  It is left out of a plan when
its total does not exceed the one, and a search takes no sum that falls short of
the other.  The coins of a group are worth its total at most, so a search of a
group left out could only take what lies at both shares at once: all coins of
the group, none of which costs anything to spend.
-/

namespace ExactSpend

/-! ## Sums that a search takes -/

/-- The least share of the target that a search from a side takes. -/
def Settings.leastPercent (s : Settings) : Side → ℕ
  | .more => 100
  | .less => s.minPaymentPercent

namespace Goal

variable {g : Goal} {sum : ℤ}

/-- The sum lies in the band or may serve as a fallback. -/
def Takes (g : Goal) (sum : ℤ) : Prop :=
  g.isMatch sum = true ∨ g.admits sum = true

theorem Serves.takes {positions : List ℕ} (h : g.Serves positions) :
    g.Takes (g.pool.sum positions) :=
  h.imp Matches.inBand Contender.admitted

theorem Takes.of_more (h : g.Takes sum) (hside : g.side = .more) :
    g.target ≤ sum := by
  rcases h with hmatch | hadmits
  · exact ((isMatch_more_iff hside).mp hmatch).1
  · exact ((admits_more hside).mp hadmits).1

theorem Takes.of_less (h : g.Takes sum) (hside : g.side = .less)
    (htarget : g.target ≤ signedMax)
    (hband : g.target * g.percent ≤ 100 * max 1 (g.target - g.tolerance)) :
    g.target * g.percent ≤ 100 * sum := by
  rcases h with hmatch | hadmits
  · have hlow := ((isMatch_less_iff hside htarget).mp hmatch).1
    exact hband.trans (Int.mul_le_mul_of_nonneg_left hlow (by decide))
  · have hshare := ((admits_less hside).mp hadmits).2
    rwa [mul_comm sum] at hshare

theorem takes_target (htarget : g.target ≤ signedMax) : g.Takes g.target :=
  Or.inl (isMatch_iff.mpr ⟨g.lowest_le_target, g.target_le_highest htarget⟩)

end Goal

/-! ## Coins of a script -/

namespace Request

variable {r : Request} {script : Script} {indices : List ℕ}

/-- Some coins of a script, none twice, each worth more than its spend fee.
There may be more of them than one payment may spend. -/
structure DrawnFrom (r : Request) (script : Script)
    (indices : List ℕ) : Prop where
  nonempty : indices ≠ []
  nodup : indices.Nodup
  usable : ∀ i ∈ indices, ∃ coin, r.coins[i]? = some coin ∧
    coin.script = script ∧
    0 < coin.effectiveValue r.rate

/-- The usable coins of a script. -/
def usableOf (r : Request) (script : Script) : List ℕ :=
  (r.membersOf script).filter fun i => 0 < r.worthAt i

/-- The total amount of the coins of a script, without a ceiling. -/
def heldBy (r : Request) (script : Script) : ℕ :=
  Unsigned.total ((r.membersOf script).map r.amountAt)

/-- What the coin at an index adds to the worth of some coins. -/
def addedBy (r : Request) (indices : List ℕ) (i : ℕ) : ℤ :=
  if i ∈ indices then r.worthAt i else 0

theorem mem_usableOf {i : ℕ} :
    i ∈ r.usableOf script ↔ i ∈ r.membersOf script ∧ 0 < r.worthAt i := by
  rw [usableOf, List.mem_filter, decide_eq_true_iff]

theorem mem_usableOf_iff_exists {i : ℕ} :
    i ∈ r.usableOf script ↔ ∃ coin, r.coins[i]? = some coin ∧
      coin.script = script ∧
      0 < coin.effectiveValue r.rate := by
  rw [mem_usableOf, mem_membersOf]
  constructor
  · rintro ⟨⟨coin, hcoin, hscript⟩, hpos⟩
    exact ⟨coin, hcoin, hscript, worthAt_eq hcoin ▸ hpos⟩
  · rintro ⟨coin, hcoin, hscript, hpos⟩
    exact ⟨⟨coin, hcoin, hscript⟩, worthAt_eq hcoin ▸ hpos⟩

theorem drawnFrom_usableOf (h : r.HasUsable (.script script)) :
    r.DrawnFrom script (r.usableOf script) := by
  have hnodup : (r.membersOf script).Nodup :=
    r.nodup_groupMembers (.script script)
  obtain ⟨coin, hcoin, hscript, hpos⟩ := h
  obtain ⟨i, hi⟩ := Array.mem_iff_getElem?.mp hcoin
  have hmem : i ∈ r.usableOf script :=
    mem_usableOf_iff_exists.mpr ⟨coin, hi, hscript, hpos⟩
  exact ⟨List.ne_nil_of_mem hmem, hnodup.filter _,
    fun _ => mem_usableOf_iff_exists.mp⟩

theorem totalOf_eq (r : Request) (script : Script) :
    r.totalOf script = min (r.heldBy script) unsignedMax := by
  rw [totalOf, heldBy, map_amountAt_membersOf]

theorem amountAt_eq {i : ℕ} {coin : Coin} (h : r.coins[i]? = some coin) :
    r.amountAt i = coin.amount := by
  rw [amountAt, h]
  rfl

theorem worthAt_le_amountAt (r : Request) (i : ℕ) :
    r.worthAt i ≤ r.amountAt i := by
  cases hcoin : r.coins[i]? with
  | none => simp [worthAt, amountAt, hcoin]
  | some coin =>
      rw [worthAt_eq hcoin, amountAt_eq hcoin]
      exact coin.effectiveValue_le_amount r.rate

theorem addedBy_le (r : Request) (indices : List ℕ) (i : ℕ) :
    r.addedBy indices i ≤ r.amountAt i := by
  by_cases hi : i ∈ indices
  · rw [addedBy, if_pos hi]
    exact r.worthAt_le_amountAt i
  · rw [addedBy, if_neg hi]
    exact Int.natCast_nonneg _

theorem addedBy_usableOf {i : ℕ} (hi : i ∈ r.membersOf script) :
    r.addedBy (r.usableOf script) i = max 0 (r.worthAt i) := by
  rw [addedBy]
  by_cases hpos : 0 < r.worthAt i
  · rw [if_pos (mem_usableOf.mpr ⟨hi, hpos⟩), max_eq_right hpos.le]
  · rw [if_neg fun hin => hpos (mem_usableOf.mp hin).2,
      max_eq_left (not_lt.mp hpos)]

theorem heldBy_eq_sum (r : Request) (script : Script) :
    (r.heldBy script : ℤ) =
      ((r.membersOf script).map fun i => (r.amountAt i : ℤ)).sum := by
  have hsum : r.heldBy script = ((r.membersOf script).map r.amountAt).sum := rfl
  rw [hsum, Nat.cast_list_sum, List.map_map]
  rfl

namespace DrawnFrom

theorem subset_membersOf (h : r.DrawnFrom script indices) {i : ℕ}
    (hi : i ∈ indices) :
    i ∈ r.membersOf script :=
  (mem_usableOf.mp (mem_usableOf_iff_exists.mpr (h.usable i hi))).1

theorem worth_eq_sum (h : r.DrawnFrom script indices) :
    r.worth indices = ((r.membersOf script).map (r.addedBy indices)).sum := by
  have hnodup : (r.membersOf script).Nodup :=
    r.nodup_groupMembers (.script script)
  have hperm : indices.Perm ((r.membersOf script).filter (· ∈ indices)) := by
    rw [List.perm_ext_iff_of_nodup h.nodup (hnodup.filter _)]
    intro i
    rw [List.mem_filter, decide_eq_true_iff]
    exact ⟨fun hi => ⟨h.subset_membersOf hi, hi⟩, And.right⟩
  have hadded :
      r.addedBy indices = fun i => if i ∈ indices then r.worthAt i else 0 := rfl
  rw [worth_perm hperm, hadded, List.sum_map_ite, List.sum_map_zero, add_zero]
  rfl

/-- Coins of a script are worth no more than it holds. -/
theorem worth_le (h : r.DrawnFrom script indices) :
    r.worth indices ≤ r.heldBy script := by
  rw [h.worth_eq_sum, heldBy_eq_sum]
  exact List.sum_le_sum fun i _ => r.addedBy_le indices i

/-- Coins that are worth all that a script holds leave no amount out, to fees or
to other coins. -/
theorem addedBy_eq (h : r.DrawnFrom script indices)
    (hall : r.heldBy script ≤ r.worth indices) {i : ℕ}
    (hi : i ∈ r.membersOf script) : r.addedBy indices i = r.amountAt i := by
  by_contra hne
  have hlt : r.addedBy indices i < r.amountAt i :=
    lt_of_le_of_ne (r.addedBy_le indices i) hne
  have hworth :=
    List.sum_lt_sum _ _ (fun i _ => r.addedBy_le indices i) ⟨i, hi, hlt⟩
  rw [← h.worth_eq_sum, ← heldBy_eq_sum] at hworth
  exact absurd hall (not_le.mpr hworth)

/-- Coins that are worth all that a script holds are all its usable coins. -/
theorem perm_usableOf (h : r.DrawnFrom script indices)
    (hall : r.heldBy script ≤ r.worth indices) :
    indices.Perm (r.usableOf script) := by
  have hnodup : (r.membersOf script).Nodup :=
    r.nodup_groupMembers (.script script)
  refine (List.perm_ext_iff_of_nodup h.nodup (hnodup.filter _)).mpr fun i => ?_
  constructor
  · exact fun hi => mem_usableOf_iff_exists.mpr (h.usable i hi)
  · intro hi
    obtain ⟨hmember, hpos⟩ := mem_usableOf.mp hi
    by_contra hnot
    have hadded := h.addedBy_eq hall hmember
    rw [addedBy, if_neg hnot] at hadded
    have hamount := r.worthAt_le_amountAt i
    omega

end DrawnFrom

/-! ## Groups that hold too little -/

/-- The group of a script does not exceed the share of the target that is worth
a search. -/
structure IsSkipped (r : Request) (script : Script) : Prop where
  target_pos : 0 < r.target
  total_le :
    100 * (r.totalOf script : ℤ) ≤ r.target * r.settings.groupUsefulnessPercent

theorem isSkipped_of_notice {total : ℕ} {target : ℤ}
    (h : Notice.groupSkipped script total target ∈ r.plan.notices) :
    r.IsSkipped script := by
  by_cases hidle : r.IsIdle
  · rw [plan_of_isIdle hidle, List.mem_singleton] at h
    cases h
  · obtain ⟨-, htarget, hlimit⟩ := not_isIdle_iff.mp hidle
    rw [plan_of_not_isIdle hidle, notices_planOf htarget hlimit] at h
    obtain ⟨g, hg, heq⟩ := List.mem_map.mp h
    obtain ⟨hgroup, hsmall⟩ := List.mem_filter.mp hg
    obtain ⟨rfl, -, -⟩ := Notice.groupSkipped.inj heq
    have htotal : g.total = r.totalOf g.script :=
      congrArg ScriptGroup.total (eq_groupOf_of_mem hgroup)
    rw [htotal, Bool.not_eq_true', Settings.isWorthwhile,
      decide_eq_false_iff_not, not_and, not_lt,
      mul_comm (r.totalOf g.script : ℤ)] at hsmall
    exact ⟨htarget, hsmall htarget.le⟩

namespace IsSkipped

theorem totalOf_le (h : r.IsSkipped script)
    (hgroup : r.settings.groupUsefulnessPercent ≤ 100) :
    (r.totalOf script : ℤ) ≤ r.target := by
  have hshare : r.target * r.settings.groupUsefulnessPercent ≤ r.target * 100 :=
    Int.mul_le_mul_of_nonneg_left (Int.ofNat_le.mpr hgroup) h.target_pos.le
  have htotal := h.total_le
  omega

/-- The total is far below the ceiling, so it is the exact one. -/
theorem heldBy_eq (h : r.IsSkipped script)
    (hgroup : r.settings.groupUsefulnessPercent ≤ 100) :
    r.heldBy script = r.totalOf script := by
  have htotal := h.totalOf_le hgroup
  have htarget : r.target ≤ signedMax := r.payment.target_le r.rate
  rw [totalOf_eq] at htotal ⊢
  unfold signedMax at htarget
  unfold unsignedMax at htotal ⊢
  omega

theorem amount_le (h : r.IsSkipped script)
    (hgroup : r.settings.groupUsefulnessPercent ≤ 100)
    {i : ℕ} (hi : i ∈ r.membersOf script) : (r.amountAt i : ℤ) ≤ signedMax := by
  have hheld : r.amountAt i ≤ r.heldBy script :=
    List.single_le_sum (fun _ _ => Nat.zero_le _) _ (List.mem_map_of_mem hi)
  calc (r.amountAt i : ℤ)
      ≤ r.heldBy script := Int.ofNat_le.mpr hheld
    _ = r.totalOf script := congrArg _ (h.heldBy_eq hgroup)
    _ ≤ r.target := h.totalOf_le hgroup
    _ ≤ signedMax := r.payment.target_le r.rate

end IsSkipped

/-! ## Where the two shares meet -/

/-- The group of a script holds just the share of the target that is not yet
worth a search, a search from a side takes sums from the same share on, and no
coin that holds anything costs anything to spend. -/
structure MeetsShare (r : Request) (script : Script) (side : Side) : Prop where
  percent_eq : r.settings.groupUsefulnessPercent = r.settings.leastPercent side
  total_eq :
    100 * (r.totalOf script : ℤ) = r.target * r.settings.groupUsefulnessPercent
  cost_eq : ∀ coin ∈ r.coins, coin.script = script → 0 < coin.amount →
    coin.inputCost r.rate = 0

variable {side : Side}

/-- Where some coins of a script are worth all that it holds, none of its coins
that holds anything costs anything to spend. -/
theorem DrawnFrom.inputCost_eq_zero (h : r.DrawnFrom script indices)
    (hall : r.heldBy script ≤ r.worth indices) {i : ℕ}
    (hi : i ∈ r.membersOf script)
    (hamount : (r.amountAt i : ℤ) ≤ signedMax) {coin : Coin}
    (hcoin : r.coins[i]? = some coin)
    (hpos : 0 < coin.amount) : coin.inputCost r.rate = 0 := by
  have hadded := h.addedBy_eq hall hi
  rw [amountAt_eq hcoin] at hadded hamount
  by_cases hdraws : i ∈ indices
  · rw [addedBy, if_pos hdraws, worthAt_eq hcoin] at hadded
    have hvalue := Coin.effectiveValue_add_inputCost hamount r.rate
    omega
  · rw [addedBy, if_neg hdraws] at hadded
    omega

theorem IsSkipped.share_le (h : r.IsSkipped script)
    (hgroup : r.settings.groupUsefulnessPercent ≤
      r.settings.leastPercent side) :
    r.target * r.settings.groupUsefulnessPercent ≤
      r.target * r.settings.leastPercent side :=
  Int.mul_le_mul_of_nonneg_left (Int.ofNat_le.mpr hgroup) h.target_pos.le

/-- A skipped group holds no more than what is worth enough for a search. -/
theorem IsSkipped.heldBy_le (h : r.IsSkipped script)
    (hgroup : r.settings.groupUsefulnessPercent ≤ r.settings.leastPercent side)
    (hleast : r.settings.leastPercent side ≤ 100)
    (hshare : r.target * r.settings.leastPercent side ≤ 100 * r.worth indices) :
    r.heldBy script ≤ r.worth indices := by
  have hheld := h.heldBy_eq (hgroup.trans hleast)
  have htotal := h.total_le
  have hshares := h.share_le hgroup
  omega

/-- Some usable coins of a skipped group that are worth enough for a search are
worth just enough. -/
theorem DrawnFrom.meetsShare (hdrawn : r.DrawnFrom script indices)
    (h : r.IsSkipped script)
    (hgroup : r.settings.groupUsefulnessPercent ≤ r.settings.leastPercent side)
    (hleast : r.settings.leastPercent side ≤ 100)
    (hshare : r.target * r.settings.leastPercent side ≤ 100 * r.worth indices) :
    r.MeetsShare script side := by
  have hgroup' := hgroup.trans hleast
  have hheld := h.heldBy_eq hgroup'
  -- The worth is at most the total, the total at most the one share and that at
  -- most the other, which the worth reaches; so all four are equal.
  have hworth := hdrawn.worth_le
  have htotal := h.total_le
  have hshares := h.share_le hgroup
  constructor
  case percent_eq =>
    have heq : r.target * r.settings.groupUsefulnessPercent =
        r.target * r.settings.leastPercent side := by omega
    exact Int.ofNat_inj.mp (Int.eq_of_mul_eq_mul_left h.target_pos.ne' heq)
  case total_eq => omega
  case cost_eq =>
    intro coin hcoin hscript hpos
    obtain ⟨i, hi⟩ := Array.mem_iff_getElem?.mp hcoin
    have hmember : i ∈ r.membersOf script :=
      mem_membersOf.mpr ⟨coin, hi, hscript⟩
    exact hdrawn.inputCost_eq_zero (h.heldBy_le hgroup hleast hshare) hmember
      (h.amount_le hgroup' hmember) hi hpos

theorem MeetsShare.amountAt_eq_max (h : r.MeetsShare script side)
    (hskip : r.IsSkipped script)
    (hgroup : r.settings.groupUsefulnessPercent ≤ 100) {i : ℕ}
    (hi : i ∈ r.membersOf script) :
    r.amountAt i = max 0 (r.worthAt i) := by
  obtain ⟨coin, hcoin, hscript⟩ := mem_membersOf.mp hi
  have hamount := hskip.amount_le hgroup hi
  rw [amountAt_eq hcoin] at hamount
  rw [worthAt_eq hcoin, amountAt_eq hcoin]
  have hvalue := Coin.effectiveValue_add_inputCost hamount r.rate
  rcases Nat.eq_zero_or_pos coin.amount with hzero | hpos
  · omega
  · have hcost := h.cost_eq coin (Array.mem_of_getElem? hcoin) hscript hpos
    omega

/-- Where the shares meet, the usable coins of the group are worth all that it
holds. -/
theorem MeetsShare.worth_usableOf (h : r.MeetsShare script side)
    (hskip : r.IsSkipped script)
    (hgroup : r.settings.groupUsefulnessPercent ≤ 100)
    (husable : r.HasUsable (.script script)) :
    r.worth (r.usableOf script) = r.totalOf script := by
  rw [(drawnFrom_usableOf husable).worth_eq_sum, ← hskip.heldBy_eq hgroup,
    heldBy_eq_sum]
  congr 1
  apply List.map_congr_left
  intro i hi
  rw [addedBy_usableOf hi, h.amountAt_eq_max hskip hgroup hi]

/-! ## The searches that a skipped group would have had -/

variable {t : Task}

theorem hasUsable_of_mem_tasksFor {group : Group}
    (ht : t ∈ (r.tasksFor group (r.groupMembers group)).tasks) :
    r.HasUsable group := by
  rw [hasUsable_iff]
  by_contra hempty
  rw [Bool.not_eq_false] at hempty
  rw [tasksFor, if_pos hempty] at ht
  cases ht

theorem hasPool_of_mem_tasksFor {group : Group}
    (ht : t ∈ (r.tasksFor group (r.groupMembers group)).tasks) :
    r.HasPool (r.groupMembers group) t.goal.pool t.sources := by
  obtain ⟨p, sources, hpool, rfl | rfl⟩ := tasksFor_cases ht
  · exact hasPool_of_pool (r.nodup_groupMembers group) hpool
  · exact hasPool_of_pool (r.nodup_groupMembers group) hpool

theorem share_le_of_takes
    (ht : t ∈ (r.tasksFor (.script script) (r.membersOf script)).tasks)
    (hband : r.target * r.settings.minPaymentPercent ≤
      100 * max 1 (r.target - r.settings.lessTolerance))
    {sum : ℤ} (h : t.goal.Takes sum) :
    r.target * r.settings.leastPercent t.goal.side ≤ 100 * sum := by
  have htarget : t.goal.target = r.target :=
    (hasPool_of_mem_tasksFor ht).target_eq
  obtain ⟨p, sources, -, rfl | rfl⟩ := tasksFor_cases ht
  · have hsum := h.of_more rfl
    rw [htarget] at hsum
    rw [mul_comm]
    exact Int.mul_le_mul_of_nonneg_left hsum (Int.natCast_nonneg 100)
  · have hmax : r.target ≤ signedMax := r.payment.target_le r.rate
    have hsum := h.of_less rfl (htarget ▸ hmax)
    rw [htarget] at hsum
    exact hsum hband

theorem MeetsShare.takes (h : r.MeetsShare script t.goal.side)
    (ht : t ∈ (r.tasksFor (.script script) (r.membersOf script)).tasks)
    (hskip : r.IsSkipped script)
    (hgroup : r.settings.groupUsefulnessPercent ≤ 100) :
    t.goal.Takes (r.totalOf script) := by
  have htarget : t.goal.target = r.target :=
    (hasPool_of_mem_tasksFor ht).target_eq
  have hmax : r.target ≤ signedMax := r.payment.target_le r.rate
  have htotal := h.total_eq
  rw [h.percent_eq] at htotal
  obtain ⟨p, sources, -, rfl | rfl⟩ := tasksFor_cases ht
  · have hleast : r.settings.leastPercent .more = 100 := rfl
    have heq : (r.totalOf script : ℤ) = r.target := by
      rw [Goal.ofSettings, hleast] at htotal
      omega
    rw [heq, ← htarget]
    exact Goal.takes_target (htarget ▸ hmax)
  · refine Or.inr ((Goal.admits_less rfl).mpr ?_)
    rw [htarget, mul_comm (r.totalOf script : ℤ)]
    exact ⟨hskip.totalOf_le hgroup, htotal.ge⟩

/-- What a search selects it draws from the coins of its script. -/
theorem exists_drawnFrom_of_selection?
    (ht : t ∈ (r.tasksFor (.script script) (r.membersOf script)).tasks)
    {limits : Limits} {signal : ℕ → Bool} {s : Selection}
    (hs : (t.goal.search limits signal).outcome.selection? = some s) :
    ∃ indices, r.DrawnFrom script indices ∧ t.goal.Takes (r.worth indices) := by
  have hpool : r.HasPool (r.membersOf script) t.goal.pool t.sources :=
    hasPool_of_mem_tasksFor ht
  have hserves := Goal.serves_of_selection? hs
  have haffords := hpool.affords hserves.choice
  refine ⟨_, ⟨?_, haffords.nodup, ?_⟩,
    hpool.sum_eq hserves.choice.lt_size ▸ hserves.takes⟩
  · rw [ne_eq, List.map_eq_nil_iff]
    exact hserves.nonempty
  · intro i hi
    obtain ⟨k, hk, rfl⟩ := List.mem_map.mp hi
    have hsource := hpool.source_mem (hserves.choice.lt_size k hk)
    exact mem_usableOf_iff_exists.mp
      (mem_usableOf.mpr ((hpool.mem_iff _).mp hsource))

/-- Let the share of the target that a group must exceed be no larger than the
share that bounds fallback sums from below, and let the band from below not
reach beneath the latter.  Then a search over a group that is skipped would take
what some usable coins of the group are worth only where the two shares meet,
and there only what all of them are worth together.  Everywhere else it would
end without a selection, whatever its budget and its signal. -/
theorem skipped_group_takes_iff (r : Request)
    (hgroup : r.settings.groupUsefulnessPercent ≤ r.settings.minPaymentPercent)
    (hpercent : r.settings.minPaymentPercent ≤ 100)
    (hband : r.target * r.settings.minPaymentPercent ≤
      100 * max 1 (r.target - r.settings.lessTolerance))
    {script : Script} {total : ℕ} {target : ℤ}
    (hskip : Notice.groupSkipped script total target ∈ r.plan.notices) :
    ∀ t ∈ (r.tasksFor (.script script) (r.membersOf script)).tasks,
      ((∃ indices, r.DrawnFrom script indices ∧
          t.goal.Takes (r.worth indices)) ↔
          r.MeetsShare script t.goal.side) ∧
        (∀ indices, r.DrawnFrom script indices →
          t.goal.Takes (r.worth indices) → indices.Perm (r.usableOf script)) ∧
        (¬r.MeetsShare script t.goal.side →
          ∀ limits signal,
            (t.goal.search limits signal).outcome = .noMatch) := by
  intro t ht
  have hskipped := isSkipped_of_notice hskip
  have hgroup' := hgroup.trans hpercent
  have hleast :
      r.settings.groupUsefulnessPercent ≤ r.settings.leastPercent t.goal.side ∧
      r.settings.leastPercent t.goal.side ≤ 100 := by
    cases t.goal.side with
    | more => exact ⟨hgroup', le_rfl⟩
    | less => exact ⟨hgroup, hpercent⟩
  have hmeets :
      (∃ indices, r.DrawnFrom script indices ∧ t.goal.Takes (r.worth indices)) →
      r.MeetsShare script t.goal.side := by
    rintro ⟨indices, hdrawn, htakes⟩
    exact hdrawn.meetsShare hskipped hleast.1 hleast.2
      (share_le_of_takes ht hband htakes)
  refine ⟨⟨hmeets, fun h => ?_⟩, fun indices hdrawn htakes => ?_,
    fun h limits signal => ?_⟩
  · have husable : r.HasUsable (.script script) := hasUsable_of_mem_tasksFor ht
    refine ⟨_, drawnFrom_usableOf husable, ?_⟩
    rw [h.worth_usableOf hskipped hgroup' husable]
    exact h.takes ht hskipped hgroup'
  · exact hdrawn.perm_usableOf
      (hskipped.heldBy_le hleast.1 hleast.2 (share_le_of_takes ht hband htakes))
  · have hnone : (t.goal.search limits signal).outcome.selection? = none := by
      by_contra hsome
      obtain ⟨s, hs⟩ := Option.ne_none_iff_exists'.mp hsome
      exact h (hmeets (exists_drawnFrom_of_selection? ht hs))
    generalize (t.goal.search limits signal).outcome = outcome at hnone ⊢
    cases outcome with
    | noMatch => rfl
    | found => cases hnone
    | bestEffort => cases hnone

/-- A payment of 100 satoshis from one coin of 75 satoshis and one of 60, each
of a script of its own, where coins cost nothing to spend. -/
def ofThreeQuarters : Request where
  coins := #[.ofScript 75 (.numbered 1 0), .ofScript 60 (.numbered 2 0)]
  rate := ⟨0⟩
  payment := ⟨100, .numbered 3 0⟩
  inputLimit := 2
  settings := {}

theorem notices_ofThreeQuarters : ofThreeQuarters.plan.notices =
    [.groupSkipped (.numbered 1 0) 75 100,
      .groupSkipped (.numbered 2 0) 60 100] := by
  cbv

/-- There is nothing to be had from the coin of 60 satoshis. -/
theorem skipped_group_takes_nothing_of_sixty :
    Notice.groupSkipped (.numbered 2 0) 60 100 ∈ ofThreeQuarters.plan.notices ∧
      (ofThreeQuarters.tasksFor (.script (.numbered 2 0))
        (ofThreeQuarters.membersOf (.numbered 2 0))).tasks.map (·.goal.side) =
          [.more, .less] ∧
      ∀ t ∈ (ofThreeQuarters.tasksFor (.script (.numbered 2 0))
          (ofThreeQuarters.membersOf (.numbered 2 0))).tasks,
        ¬∃ indices, ofThreeQuarters.DrawnFrom (.numbered 2 0) indices ∧
          t.goal.Takes (ofThreeQuarters.worth indices) := by
  have hskip : Notice.groupSkipped (.numbered 2 0) 60 100 ∈
      ofThreeQuarters.plan.notices := by
    rw [notices_ofThreeQuarters]
    decide
  refine ⟨hskip, by cbv, fun t ht htakes => ?_⟩
  have htotal :=
    ((skipped_group_takes_iff ofThreeQuarters (by decide)
      (by decide) (by decide) hskip t ht).1.mp htakes).total_eq
  exact absurd htotal (by decide)

/-- The coin of 75 satoshis is left out, though a search from below would have
kept it as a fallback. -/
theorem skipped_group_takes_seventy_five :
    ofThreeQuarters.settings.groupUsefulnessPercent ≤
        ofThreeQuarters.settings.minPaymentPercent ∧
      ofThreeQuarters.settings.minPaymentPercent ≤ 100 ∧
      ofThreeQuarters.target * ofThreeQuarters.settings.minPaymentPercent ≤
        100 * max 1
          (ofThreeQuarters.target - ofThreeQuarters.settings.lessTolerance) ∧
      Notice.groupSkipped (.numbered 1 0) 75 100 ∈
        ofThreeQuarters.plan.notices ∧
      ∃ t ∈ (ofThreeQuarters.tasksFor (.script (.numbered 1 0))
          (ofThreeQuarters.membersOf (.numbered 1 0))).tasks,
        t.goal.side = .less ∧
          (∃ indices, ofThreeQuarters.DrawnFrom (.numbered 1 0) indices ∧
            t.goal.Takes (ofThreeQuarters.worth indices)) ∧
          (t.goal.search ⟨100, 1⟩ fun _ => false).outcome =
            .bestEffort ⟨[0], [75], 75, 0⟩ := by
  refine ⟨by decide, by decide, by decide, ?_, ?_⟩
  · rw [notices_ofThreeQuarters]
    decide
  · have houtcomes : (ofThreeQuarters.tasksFor (.script (.numbered 1 0))
        (ofThreeQuarters.membersOf (.numbered 1 0))).tasks.map (fun t =>
          (t.goal.side, (t.goal.search ⟨100, 1⟩ fun _ => false).outcome)) =
        [(.more, .noMatch), (.less, .bestEffort ⟨[0], [75], 75, 0⟩)] := by
      cbv
    have hless : (Side.less, Outcome.bestEffort ⟨[0], [75], 75, 0⟩) ∈
        (ofThreeQuarters.tasksFor (.script (.numbered 1 0))
          (ofThreeQuarters.membersOf (.numbered 1 0))).tasks.map fun t =>
            (t.goal.side, (t.goal.search ⟨100, 1⟩ fun _ => false).outcome) := by
      rw [houtcomes]
      decide
    obtain ⟨t, ht, heq⟩ := List.mem_map.mp hless
    obtain ⟨hside, houtcome⟩ := Prod.mk.inj heq
    exact ⟨t, ht, hside,
      exists_drawnFrom_of_selection? ht (by rw [houtcome]; rfl), houtcome⟩

end Request
end ExactSpend
