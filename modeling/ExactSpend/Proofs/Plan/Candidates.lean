import ExactSpend.Proofs.Fees
import ExactSpend.Proofs.Plan.Groups
import ExactSpend.Proofs.Plan.Order
import Mathlib

/-!
# Candidates of a search

A coin is met under three numbers: its own index, its place among the usable
coins of a group and its position in the pool.  The sources of a search join
the first and the last, so that a position stands for one coin, with its
value and its cost.  Nothing that a plan makes a pool of is refused.
-/

namespace ExactSpend

/-- A search over the usable coins of its group, each at one position, in
descending order of value and those of one value in their own order. -/
structure Task.WellFormed (t : Task) (r : Request) : Prop where
  nodup : t.sources.toList.Nodup
  mem_iff : ∀ i, i ∈ t.sources.toList ↔
    ∃ coin, r.coins[i]? = some coin ∧ t.group.Holds coin ∧
      0 < coin.effectiveValue r.rate
  size_eq : t.sources.size = t.goal.pool.size
  candidates_eq : t.label.candidates = t.sources.size
  coin_at : ∀ k < t.sources.size, ∃ coin,
    r.coins[t.sources.getD k 0]? = some coin ∧
    t.goal.pool.value k = coin.effectiveValue r.rate ∧
    t.goal.pool.cost k = coin.inputCost r.rate
  descending : ∀ j k, j < k → k < t.sources.size →
    t.goal.pool.value k ≤ t.goal.pool.value j
  ties : ∀ j k, j < k → k < t.sources.size →
    t.goal.pool.value j = t.goal.pool.value k →
    t.sources.getD j 0 < t.sources.getD k 0
  target_eq : t.goal.pool.target = r.payment.target r.rate
  inputLimit_eq : t.goal.pool.inputLimit = r.inputLimit

namespace Request

variable {r : Request}

theorem exists_coin_of_pool {members : List ℕ} {p : Pool} {sources : Array ℕ}
    (h : r.pool members = .ok (p, sources)) {k : ℕ} (hk : k < p.size) :
    ∃ coin, r.coins[sources.getD k 0]? = some coin ∧
      p.value k = coin.effectiveValue r.rate ∧
        p.cost k = coin.inputCost r.rate := by
  obtain ⟨coin, hcoin, -, hcandidate⟩ :=
    coin_of_mem_usable (mem_usable_of_pool h hk)
  refine ⟨coin, hcoin, congrArg Candidate.value hcandidate, ?_⟩
  rw [← coin.ofCount_inputCost]
  exact congrArg Candidate.cost hcandidate

theorem mem_sources_iff {t : Task} (ht : t ∈ r.plan.tasks) {i : ℕ} :
    i ∈ t.sources.toList ↔
      ∃ coin, r.coins[i]? = some coin ∧ t.group.Holds coin ∧
        0 < coin.effectiveValue r.rate := by
  rw [(hasPool_of_mem_plan ht).mem_iff, mem_groupMembers]
  constructor
  · rintro ⟨⟨coin, hcoin, hholds⟩, hpos⟩
    exact ⟨coin, hcoin, hholds, worthAt_eq hcoin ▸ hpos⟩
  · rintro ⟨coin, hcoin, hholds, hpos⟩
    exact ⟨⟨coin, hcoin, hholds⟩, worthAt_eq hcoin ▸ hpos⟩

theorem wellFormed_of_mem_plan {t : Task} (ht : t ∈ r.plan.tasks) :
    t.WellFormed r := by
  have hpool := hasPool_of_mem_plan ht
  have hsize := hpool.size_eq
  -- One order of coins gives both the order of values and that of equal ones.
  have hlisted : ∀ j k, j < k → k < t.sources.size →
      t.goal.pool.value k < t.goal.pool.value j ∨
        t.goal.pool.value j = t.goal.pool.value k ∧
          t.sources.getD j 0 < t.sources.getD k 0 := by
    intro j k hjk hk
    rw [hsize] at hk
    have hprecedes := precedes_of_lt ht hjk hk
    rwa [Precedes, ← hpool.value_eq j (hjk.trans hk), ← hpool.value_eq k hk]
      at hprecedes
  constructor
  case nodup => exact hpool.nodup
  case mem_iff => exact fun i => mem_sources_iff ht
  case size_eq => exact hsize
  case candidates_eq => exact hsize.symm
  case coin_at => exact fun k hk =>
    exists_coin_of_pool (task_of_mem_plan ht).1 (hsize ▸ hk)
  case descending =>
    intro j k hjk hk
    rcases hlisted j k hjk hk with hlt | ⟨heq, -⟩
    · exact hlt.le
    · exact heq.ge
  case ties =>
    intro j k hjk hk heq
    rcases hlisted j k hjk hk with hlt | ⟨-, hlt⟩
    · exact absurd heq hlt.ne'
    · exact hlt
  case target_eq => exact hpool.target_eq
  case inputLimit_eq => exact hpool.inputLimit_eq

/-! ## No refusal -/

theorem notices_tasksFor (htarget : 0 < r.target) (hlimit : 0 < r.inputLimit)
    (group : Group)
    (members : List ℕ) : (r.tasksFor group members).notices = [] := by
  obtain ⟨p, sources, hpool⟩ := exists_pool members htarget hlimit
  rw [tasksFor]
  by_cases hempty : (r.usable members).isEmpty = true
  · rw [if_pos hempty]
  · rw [if_neg hempty, hpool]

/-- All there is to tell about a plan are the groups left out. -/
theorem notices_planOf (htarget : 0 < r.target) (hlimit : 0 < r.inputLimit)
    (groups : List ScriptGroup) :
    (r.planOf groups).notices =
      (groups.filter fun g => !r.settings.isWorthwhile g.total r.target).map
        fun g =>
        .groupSkipped g.script g.total r.target := by
  have hparts : ∀ kept : List ScriptGroup,
      (kept.map (fun g => r.tasksFor (.script g.script) g.members) ++
        [r.tasksFor .allCoins (List.range r.coins.size)]).flatMap
          Plan.notices = [] := by
    intro kept
    rw [List.flatMap_eq_nil_iff]
    intro part hpart
    rcases List.mem_append.mp hpart with hpart | hpart
    · obtain ⟨g, -, rfl⟩ := List.mem_map.mp hpart
      exact notices_tasksFor htarget hlimit _ _
    · rw [List.mem_singleton.mp hpart]
      exact notices_tasksFor htarget hlimit _ _
  rw [planOf]
  simp only [hparts, List.append_nil]

theorem groupRefused_notMem_notices (r : Request) (group : Group)
    (fault : Pool.Fault) :
    Notice.groupRefused group fault ∉ r.plan.notices := by
  by_cases hidle : r.IsIdle
  · rw [plan_of_isIdle hidle, List.mem_singleton]
    exact nofun
  · obtain ⟨-, htarget, hlimit⟩ := not_isIdle_iff.mp hidle
    rw [plan_of_not_isIdle hidle, notices_planOf htarget hlimit]
    intro hmem
    obtain ⟨g, -, heq⟩ := List.mem_map.mp hmem
    cases heq

/-- Every search of a plan is well formed, and no group is refused for its
data. -/
theorem plan_wellFormed (r : Request) :
    (∀ t ∈ r.plan.tasks, t.WellFormed r) ∧
      ∀ group fault, Notice.groupRefused group fault ∉ r.plan.notices :=
  ⟨fun _ => wellFormed_of_mem_plan, r.groupRefused_notMem_notices⟩

/-- Coins of equal amounts stand at positions of their own. -/
theorem plan_wellFormed_of_four_coins :
    ∃ t ∈ ofFourCoins.plan.tasks, t.sources = #[1, 0, 2, 3] ∧
      t.WellFormed ofFourCoins := by
  have hsources : ofFourCoins.plan.tasks.map (·.sources) =
      [#[0, 2], #[0, 2], #[1, 3], #[1, 3], #[1, 0, 2, 3], #[1, 0, 2, 3]] := by
    cbv
  have hmem : #[1, 0, 2, 3] ∈ ofFourCoins.plan.tasks.map (·.sources) := by
    rw [hsources]
    decide
  obtain ⟨t, ht, hsource⟩ := List.mem_map.mp hmem
  exact ⟨t, ht, hsource, (plan_wellFormed ofFourCoins).1 t ht⟩

end Request
end ExactSpend
