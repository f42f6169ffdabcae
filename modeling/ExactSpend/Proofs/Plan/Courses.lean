import ExactSpend.Harvest
import ExactSpend.Proofs.Plan.Schedule
import ExactSpend.Proofs.Search.Run

/-!
# Courses

Where a search goes depends on its pool and its band.  The side of the goal and
the share that bounds fallback sums decide what is offered to the record, and
the record is never asked where to go.  So goals with one pool and one band
take the same course under every budget and every signal, and the two searches
of a group that accept exact sums only match on the same coins.
-/

namespace ExactSpend

namespace Goal

variable {g g' : Goal}

/-- Goals over one pool with one band. -/
structure SameBand (g g' : Goal) : Prop where
  pool_eq : g'.pool = g.pool
  lowest_eq : g'.lowest = g.lowest
  highest_eq : g'.highest = g.highest

theorem SameBand.firstFit_eq (h : g.SameBand g') (w : Walk) :
    g'.firstFit w = g.firstFit w := by
  rw [firstFit, firstFit, h.pool_eq, h.highest_eq]

theorem SameBand.isMatch_eq (h : g.SameBand g') (sum : ℤ) :
    g'.isMatch sum = g.isMatch sum := by
  rw [isMatch, isMatch, h.lowest_eq, h.highest_eq]

/-- The turns differ in their offers at most. -/
theorem SameBand.move_eq (h : g.SameBand g') (tails : Array ℤ) (w : Walk) :
    (g'.turn tails w).move = (g.turn tails w).move := by
  rw [turn_eq, turn_eq, h.firstFit_eq, h.isMatch_eq, h.pool_eq, h.lowest_eq]
  split_ifs <;> rfl

/-- Whatever the records are at the beginning, the searches go the same way. -/
theorem SameBand.explore_sameCourse (h : g.SameBand g') (tails : Array ℤ)
    (stops : ℕ → Bool) (budget done : ℕ) (w : Walk)
    (record record' : Option Selection) :
    (g.explore tails stops budget done w record).SameCourse
      (g'.explore tails stops budget done w record') :=
  (@explore_together g tails g' tails (fun _ => True) (fun _ _ => True)
    h.pool_eq (fun w _ => h.move_eq tails w) (fun _ _ _ _ => trivial)
    (fun _ _ _ _ _ => trivial) stops budget done w record record' trivial
    trivial).1

theorem SameBand.search_sameCourse (h : g.SameBand g') (limits : Limits)
    (signal : ℕ → Bool) :
    (g.search limits signal).SameCourse (g'.search limits signal) := by
  rw [search, search, h.pool_eq]
  exact h.explore_sameCourse g.pool.tails (limits.stops signal)
    limits.iterations 0 _ none none

/-- Without a tolerance the band is the target, from either side. -/
theorem band_of_exact (htolerance : g.tolerance = 0)
    (htarget : g.target ≤ signedMax) :
    g.lowest = g.target ∧ g.highest = g.target := by
  have hpos : 0 < g.target := g.pool.target_pos
  have hzero : Signed.ofCount 0 = 0 := rfl
  rw [lowest, highest, htolerance, hzero, sub_zero,
    Signed.add_eq_of_le (by rwa [add_zero]), add_zero]
  cases g.side with
  | more => exact ⟨rfl, rfl⟩
  | less => exact ⟨max_eq_left hpos, rfl⟩

theorem sameBand_of_exact (hpool : g'.pool = g.pool)
    (htolerance : g.tolerance = 0) (htolerance' : g'.tolerance = 0)
    (htarget : g.target ≤ signedMax) : g.SameBand g' := by
  have hsame : g'.target = g.target := congrArg Pool.target hpool
  obtain ⟨hlowest, hhighest⟩ := band_of_exact htolerance htarget
  obtain ⟨hlowest', hhighest'⟩ := band_of_exact htolerance' (hsame ▸ htarget)
  exact ⟨hpool, by rw [hlowest', hlowest, hsame],
    by rw [hhighest', hhighest, hsame]⟩

end Goal

namespace Task

/-- The coins on which a search matches, if it does. -/
def matchedCoins (t : Task) (limits : Limits) (signal : ℕ → Bool) :
    Option (List ℕ) :=
  (t.goal.search limits signal).found.map fun s => t.coinsAt s.positions

end Task

namespace Request

variable {r : Request} {t t' : Task}

/-- Searches of one group run over one pool whose positions stand for the same
coins. -/
theorem pool_eq_of_group_eq (ht : t ∈ r.plan.tasks) (ht' : t' ∈ r.plan.tasks)
    (hgroup : t'.group = t.group) : t'.goal.pool = t.goal.pool ∧
    t'.sources = t.sources := by
  have hpool := (task_of_mem_plan ht).1
  have hpool' := (task_of_mem_plan ht').1
  rw [hgroup, hpool] at hpool'
  obtain ⟨hsame, hsources⟩ := Prod.mk.inj (Except.ok.inj hpool')
  exact ⟨hsame.symm, hsources.symm⟩

theorem tolerance_of_exact (hmore : r.settings.moreTolerance.getD 0 = 0)
    (hless : r.settings.lessTolerance = 0) (ht : t ∈ r.plan.tasks) :
    t.goal.tolerance = 0 := by
  rcases (task_of_mem_plan ht).2 with hgoal | hgoal
  · exact (congrArg Goal.tolerance hgoal).trans hmore
  · exact (congrArg Goal.tolerance hgoal).trans hless

theorem sameBand_of_group_eq (hmore : r.settings.moreTolerance.getD 0 = 0)
    (hless : r.settings.lessTolerance = 0) (ht : t ∈ r.plan.tasks)
    (ht' : t' ∈ r.plan.tasks)
    (hgroup : t'.group = t.group) : t.goal.SameBand t'.goal := by
  have htarget : t.goal.target = r.target := (hasPool_of_mem_plan ht).target_eq
  apply Goal.sameBand_of_exact (pool_eq_of_group_eq ht ht' hgroup).1
    (tolerance_of_exact hmore hless ht) (tolerance_of_exact hmore hless ht')
  rw [htarget]
  exact r.payment.target_le r.rate

/-- Searches over one pool with one band end alike, after as many iterations and
with the same match, whatever their budget, their check interval and the signal
are.  Goals without a tolerance have one band from either side, and the share
that bounds fallback sums is no part of it.  Where a request accepts exact sums
only, the searches of a group therefore match on the same coins, or neither of
them matches. -/
theorem search_ignores_record :
    (∀ g g' : Goal, g.SameBand g' → ∀ limits signal,
        (g.search limits signal).SameCourse (g'.search limits signal)) ∧
      (∀ g g' : Goal, g'.pool = g.pool → g.tolerance = 0 → g'.tolerance = 0 →
        g.target ≤ signedMax → g.SameBand g') ∧
      (∀ (g : Goal) (percent : ℕ), g.SameBand { g with percent }) ∧
      ∀ r : Request, r.settings.moreTolerance.getD 0 = 0 →
        r.settings.lessTolerance = 0 →
        ∀ t ∈ r.plan.tasks, ∀ t' ∈ r.plan.tasks, t'.group = t.group →
          ∀ limits signal,
            (t.goal.search limits signal).SameCourse
              (t'.goal.search limits signal) ∧
            t'.matchedCoins limits signal = t.matchedCoins limits signal := by
  refine ⟨fun g g' => Goal.SameBand.search_sameCourse,
    fun g g' => Goal.sameBand_of_exact, fun g percent => ⟨rfl, rfl, rfl⟩, ?_⟩
  intro r hmore hless t ht t' ht' hgroup limits signal
  have hband := sameBand_of_group_eq hmore hless ht ht' hgroup
  have hcourse := hband.search_sameCourse limits signal
  have hsources := (pool_eq_of_group_eq ht ht' hgroup).2
  refine ⟨hcourse, ?_⟩
  rw [Task.matchedCoins, Task.matchedCoins, hcourse.found_eq]
  simp only [Task.coinsAt, hsources]

/-- The payment of 10000 satoshis when only exact sums are accepted. -/
def ofFourCoinsExactly : Request :=
  { ofFourCoins with settings := {} }

/-- After two iterations the records differ, but not the course.  Of the
searches over all coins the one from below matches on the two coins of 5000
satoshis because the one from above does. -/
theorem search_ignores_record_of_four_coins :
    ((Goal.ofFiveCoins .more 18 (by decide)).search ⟨2, 1⟩
      fun _ => false).record ≠
        ((Goal.ofFiveCoins .less 18 (by decide)).search ⟨2, 1⟩
          fun _ => false).record ∧
      ((Goal.ofFiveCoins .more 18 (by decide)).search ⟨2, 1⟩
          fun _ => false).SameCourse
        ((Goal.ofFiveCoins .less 18 (by decide)).search ⟨2, 1⟩ fun _ => false) ∧
      ∃ t ∈ ofFourCoinsExactly.plan.tasks, t.key = (.allCoins, .less) ∧
        t.matchedCoins ⟨100, 1⟩ (fun _ => false) = some [0, 2] := by
  obtain ⟨hcourse, hexact, -, hgroups⟩ := search_ignores_record
  have htarget : (Goal.ofFiveCoins .more 18 (by decide)).target ≤
      signedMax := by decide
  have hband : (Goal.ofFiveCoins .more 18 (by decide)).SameBand
      (Goal.ofFiveCoins .less 18 (by decide)) := hexact _ _ rfl rfl rfl htarget
  refine ⟨by decide, hcourse _ _ hband _ _, ?_⟩
  have hmatched : ofFourCoinsExactly.plan.tasks.map
      (fun t => (t.key, t.matchedCoins ⟨100, 1⟩ fun _ => false)) =
        [((.script (.numbered 1 0), .more), some [0, 2]),
          ((.script (.numbered 1 0), .less), some [0, 2]),
          ((.script (.numbered 2 0), .more), none),
            ((.script (.numbered 2 0), .less), none),
          ((.allCoins, .more), some [0, 2]),
            ((.allCoins, .less), some [0, 2])] := by
    cbv
  have hmore : ((Group.allCoins, Side.more), some [0, 2]) ∈
      ofFourCoinsExactly.plan.tasks.map
      fun t => (t.key, t.matchedCoins ⟨100, 1⟩ fun _ => false) := by
    rw [hmatched]
    decide
  have hless : (Group.allCoins, Side.less) ∈
      ofFourCoinsExactly.plan.tasks.map Task.key := by
    have hkeys := congrArg (List.map Prod.fst) hmatched
    rw [List.map_map] at hkeys
    exact hkeys ▸ by decide
  obtain ⟨t, ht, hfound⟩ := List.mem_map.mp hmore
  obtain ⟨t', ht', hkey'⟩ := List.mem_map.mp hless
  obtain ⟨hkey, hcoins⟩ := Prod.mk.inj hfound
  have hgroup : t'.group = t.group :=
    (congrArg Prod.fst hkey').trans (congrArg Prod.fst hkey).symm
  exact ⟨t', ht', hkey',
    (hgroups _ rfl rfl t ht t' ht' hgroup _ _).2.trans hcoins⟩

end Request
end ExactSpend
