import ExactSpend.Proofs.Plan.Arrivals
import ExactSpend.Proofs.Search.Fallback

/-!
# Valid subsets

A search accepts sums on its own side of the target only, near enough to it or
within the share of it that bounds fallback sums.  What a search selects it
selects among the usable coins of its own group, so both facts carry over from
positions to coins.
-/

namespace ExactSpend

/-! ## Accepted sums -/

namespace Goal

variable {g : Goal} {positions : List ℕ}

theorem Serves.sum_of_more (h : g.Serves positions) (hside : g.side = .more) :
    (g.target ≤ g.pool.sum positions ∧
      g.pool.sum positions ≤ g.target + g.tolerance) ∨
      (g.target < g.pool.sum positions ∧
        100 * g.pool.sum positions ≤ g.target * g.percent) := by
  rcases h with hmatches | hcontender
  · obtain ⟨hlow, hhigh, -⟩ := (isMatch_more_iff hside).mp hmatches.inBand
    exact Or.inl ⟨hlow, hhigh⟩
  · obtain ⟨hlow, hshare⟩ := (admits_more hside).mp hcontender.admitted
    rcases hlow.eq_or_lt with heq | hlt
    · left
      omega
    · right
      exact ⟨hlt, by rwa [mul_comm]⟩

theorem Serves.sum_of_less (h : g.Serves positions) (hside : g.side = .less)
    (htarget : g.target ≤ signedMax) :
    (max 1 (g.target - g.tolerance) ≤ g.pool.sum positions ∧
        g.pool.sum positions ≤ g.target) ∨
      (g.pool.sum positions < g.target ∧
        g.target * g.percent ≤ 100 * g.pool.sum positions) := by
  rcases h with hmatches | hcontender
  · exact Or.inl ((isMatch_less_iff hside htarget).mp hmatches.inBand)
  · obtain ⟨hhigh, hshare⟩ := (admits_less hside).mp hcontender.admitted
    have hpos : 0 < g.target := g.pool.target_pos
    rcases hhigh.eq_or_lt with heq | hlt
    · left
      omega
    · right
      exact ⟨hlt, by rwa [mul_comm 100]⟩

end Goal

/-! ## Selected coins -/

namespace Request

variable {r : Request} {a : Arrival} {subset : List ℕ}

/-- The sums that searches of a request accept, from above and from below. -/
def Accepts (r : Request) (sum : ℤ) : Prop :=
  (r.target ≤ sum ∧ sum ≤ r.target + (r.settings.moreTolerance.getD 0 : ℕ)) ∨
    (r.target < sum ∧ 100 * sum ≤ r.target * r.settings.maxOverpaymentPercent) ∨
    (max 1 (r.target - r.settings.lessTolerance) ≤ sum ∧ sum ≤ r.target) ∨
    (sum < r.target ∧ r.target * r.settings.minPaymentPercent ≤ 100 * sum)

theorem accepts_of_selects (ha : a.Answers r.plan.tasks)
    (h : a.Selects subset) :
    r.Accepts (r.worth subset) := by
  obtain ⟨positions, rfl, hserves⟩ := ha.exists_positions h
  have hpool := hasPool_of_mem_plan ha.mem
  have hworth :
      a.task.goal.pool.sum positions = r.worth (a.task.coinsAt positions) :=
    hpool.sum_eq hserves.choice.lt_size
  have htarget : a.task.goal.target = r.target := hpool.target_eq
  rcases (task_of_mem_plan ha.mem).2 with hgoal | hgoal
  · have htolerance := congrArg Goal.tolerance hgoal
    have hpercent := congrArg Goal.percent hgoal
    have hsum := hserves.sum_of_more (congrArg Goal.side hgoal)
    rw [hworth, htarget, htolerance, hpercent] at hsum
    exact hsum.imp_right Or.inl
  · have htolerance := congrArg Goal.tolerance hgoal
    have hpercent := congrArg Goal.percent hgoal
    have hmax : a.task.goal.target ≤ signedMax :=
      htarget ▸ r.payment.target_le r.rate
    have hsum := hserves.sum_of_less (congrArg Goal.side hgoal) hmax
    rw [hworth, htarget, htolerance, hpercent] at hsum
    exact Or.inr (Or.inr hsum)

theorem ne_nil_of_selects (ha : a.Answers r.plan.tasks) (h : a.Selects subset) :
    subset ≠ [] := by
  obtain ⟨positions, rfl, hserves⟩ := ha.exists_positions h
  rw [Task.coinsAt, ne_eq, List.map_eq_nil_iff]
  exact hserves.nonempty

theorem mem_groupMembers_of_selects (ha : a.Answers r.plan.tasks)
    (h : a.Selects subset) {i : ℕ}
    (hi : i ∈ subset) : i ∈ r.groupMembers a.task.group := by
  obtain ⟨positions, rfl, hserves⟩ := ha.exists_positions h
  obtain ⟨k, hk, rfl⟩ := List.mem_map.mp hi
  have hpool := hasPool_of_mem_plan ha.mem
  exact ((hpool.mem_iff _).mp
    (hpool.source_mem (hserves.choice.lt_size k hk))).1

/-- Every subset harvested has coins, names no coin twice, keeps to the input
limit, takes only coins worth more than their spend fee and is worth what the
settings accept.  What a search over the coins of a script selects carries that
script. -/
theorem harvest_valid {arrivals : List Arrival}
    (hanswers : ∀ a ∈ arrivals, a.Answers r.plan.tasks)
    (hsubset : subset ∈ harvest arrivals) :
    subset ≠ [] ∧ subset.Nodup ∧ subset.length ≤ r.inputLimit ∧
      (∀ i ∈ subset, ∃ coin, r.coins[i]? = some coin ∧
        0 < coin.effectiveValue r.rate) ∧
      r.Accepts (r.worth subset) ∧
      ∀ a ∈ arrivals, a.Selects subset → ∀ script,
        a.task.group = .script script →
        ∀ i ∈ subset, ∃ coin, r.coins[i]? = some coin ∧
          coin.script = script := by
  have haffords := affords_of_mem_harvest hanswers hsubset
  obtain ⟨a, ha, hfirst⟩ := exists_of_mem_gather hsubset
  have hselects : a.Selects subset := Arrival.subset?_eq_some_iff.mp hfirst
  refine ⟨ne_nil_of_selects (hanswers a ha) hselects, haffords.nodup,
    haffords.length_le, ?_, accepts_of_selects (hanswers a ha) hselects, ?_⟩
  · intro i hi
    exact exists_coin_of_worthAt_pos (haffords.worth_pos i hi)
  · intro b hb hselects script hgroup i hi
    have hmember := mem_groupMembers_of_selects (hanswers b hb) hselects hi
    rw [hgroup] at hmember
    exact mem_membersOf.mp hmember

theorem harvest_of_four_coins_valid :
    (∀ a ∈ ofFourCoinsArrivals, a.Answers ofFourCoins.plan.tasks) ∧
      [1, 3] ∈ harvest ofFourCoinsArrivals ∧
        [1, 3].length ≤ ofFourCoins.inputLimit ∧
      ofFourCoins.Accepts (ofFourCoins.worth [1, 3]) := by
  have hanswers :=
    Disturbance.answers {} ofFourCoins.settings.limits ofFourCoins.plan.tasks
  have hsubset : [1, 3] ∈ harvest ofFourCoinsArrivals := by
    rw [harvest_ofFourCoins]
    decide
  obtain ⟨-, -, hlength, -, haccepts, -⟩ := harvest_valid hanswers hsubset
  exact ⟨hanswers, hsubset, hlength, haccepts⟩

end Request
end ExactSpend
