import ExactSpend.Proofs.Plan.Pools

/-!
# Searches of a plan

Every search of a plan runs over a group of distinct coins, and the searches
over all coins are always among them.  The module first says which coins a
script group has, then what any search of a plan is.
-/

namespace ExactSpend

/-- The coins that the searches of a group run over. -/
def Group.Holds : Group → Coin → Prop
  | .script s, coin => coin.script = s
  | .allCoins, _ => True

namespace Request

variable {r : Request}

/-! ## Script groups -/

/-- The indices of the coins of a script, ascending. -/
def membersOf (r : Request) (script : Script) : List ℕ :=
  (r.coins.toList.zipIdx.filter fun e => e.1.script = script).map (·.2)

theorem mem_membersOf {script : Script} {i : ℕ} :
    i ∈ r.membersOf script ↔ ∃ coin, r.coins[i]? = some coin ∧
      coin.script = script := by
  simp only [membersOf, List.mem_map, List.mem_filter, decide_eq_true_iff,
    Prod.exists, List.mk_mem_zipIdx_iff_getElem?, exists_eq_right,
    Array.getElem?_toList]

theorem increasing_membersOf (r : Request) (script : Script) :
    (r.membersOf script).Pairwise (· < ·) := by
  have hsub := (List.filter_sublist (l := r.coins.toList.zipIdx)
    (p := fun e => decide (e.1.script = script))).map (·.2)
  rw [List.zipIdx_map_snd] at hsub
  exact List.Pairwise.sublist hsub List.pairwise_lt_range'

/-- The indices of the coins that the searches of a group run over,
ascending. -/
def groupMembers (r : Request) : Group → List ℕ
  | .script script => r.membersOf script
  | .allCoins => List.range r.coins.size

theorem increasing_groupMembers (r : Request) (group : Group) :
    (r.groupMembers group).Pairwise (· < ·) := by
  cases group with
  | script script => exact r.increasing_membersOf script
  | allCoins => exact List.pairwise_lt_range

theorem nodup_groupMembers (r : Request) (group : Group) :
    (r.groupMembers group).Nodup :=
  (r.increasing_groupMembers group).imp ne_of_lt

theorem foldl_membersByScript (script : Script) (entries : List (Coin × ℕ)) :
    ∀ groups : Std.TreeMap Script (List ℕ),
      (entries.foldl (fun groups (coin, i) =>
          groups.insert coin.script (i :: groups.getD coin.script []))
            groups).getD script [] =
        ((entries.filter fun e => e.1.script = script).map (·.2)).reverse ++
          groups.getD script [] := by
  induction entries with
  | nil => simp
  | cons e entries ih =>
      intro groups
      rw [List.foldl_cons, ih, Std.TreeMap.getD_insert]
      by_cases heq : e.1.script = script
      · simp [heq]
      · have hne : compare e.1.script script ≠ .eq := fun h =>
          heq (Std.LawfulEqOrd.eq_of_compare h)
        simp [heq, hne]

theorem membersByScript_getD (r : Request) (script : Script) :
    r.membersByScript.getD script [] = (r.membersOf script).reverse := by
  rw [membersByScript, foldl_membersByScript]
  simp [membersOf]

theorem members_of_mem_scriptGroups {g : ScriptGroup}
    (hg : g ∈ r.scriptGroups) :
    g.members = r.membersOf g.script := by
  obtain ⟨⟨script, members⟩, hmem, rfl⟩ := List.mem_map.mp hg
  have hget := Std.TreeMap.mem_toList_iff_getElem?_eq_some.mp hmem
  have hmembers : members = (r.membersOf script).reverse := by
    rw [← membersByScript_getD, Std.TreeMap.getD_eq_getD_getElem?, hget]
    rfl
  simp [hmembers]

/-! ## Usable coins of a group -/

theorem mem_groupMembers {group : Group} {i : ℕ} :
    i ∈ r.groupMembers group ↔
      ∃ coin, r.coins[i]? = some coin ∧ group.Holds coin := by
  cases group with
  | script script => exact mem_membersOf
  | allCoins =>
      simp only [groupMembers, List.mem_range, Group.Holds, and_true]
      constructor
      · exact fun h => ⟨_, Array.getElem?_eq_getElem h⟩
      · rintro ⟨coin, hcoin⟩
        exact (Array.getElem?_eq_some_iff.mp hcoin).1

/-- Some coin of a group is worth more than its spend fee. -/
def HasUsable (r : Request) (group : Group) : Prop :=
  ∃ coin ∈ r.coins, group.Holds coin ∧ 0 < coin.effectiveValue r.rate

theorem hasUsable_iff {group : Group} :
    r.HasUsable group ↔ (r.usable (r.groupMembers group)).isEmpty = false := by
  have hmap : (r.usable (r.groupMembers group)).isEmpty = false ↔
      ∃ i ∈ r.groupMembers group, 0 < r.worthAt i := by
    rw [← List.isEmpty_map (f := (·.2)), map_usable,
      List.isEmpty_eq_false_iff_exists_mem]
    simp only [List.mem_filter, decide_eq_true_iff]
  rw [hmap]
  constructor
  · rintro ⟨coin, hcoin, hholds, hpos⟩
    obtain ⟨i, hi⟩ := Array.mem_iff_getElem?.mp hcoin
    exact ⟨i, mem_groupMembers.mpr ⟨coin, hi, hholds⟩, worthAt_eq hi ▸ hpos⟩
  · rintro ⟨i, hi, hpos⟩
    obtain ⟨coin, hcoin, hholds⟩ := mem_groupMembers.mp hi
    exact ⟨coin, Array.mem_of_getElem? hcoin, hholds, worthAt_eq hcoin ▸ hpos⟩

/-! ## Searches -/

/-- There is nothing to search: no coins, no positive target or no input
allowed. -/
def IsIdle (r : Request) : Prop :=
  r.coins.size = 0 ∨ r.target ≤ 0 ∨ r.inputLimit = 0

theorem not_isIdle_iff :
    ¬r.IsIdle ↔ r.coins.size ≠ 0 ∧ 0 < r.target ∧ 0 < r.inputLimit := by
  rw [IsIdle, not_or, not_or, not_le, Nat.pos_iff_ne_zero]

theorem plan_of_isIdle (h : r.IsIdle) :
    r.plan = ⟨[], [.nothingToSearch r.coins.size r.target r.inputLimit]⟩ := by
  rw [plan, if_pos]
  rwa [Array.isEmpty_iff_size_eq_zero]

theorem plan_of_not_isIdle (h : ¬r.IsIdle) :
    r.plan = r.planOf r.scriptGroups := by
  rw [plan, if_neg]
  rwa [Array.isEmpty_iff_size_eq_zero]

theorem tasksFor_cases {group : Group} {members : List ℕ} {t : Task}
    (ht : t ∈ (r.tasksFor group members).tasks) :
    ∃ p sources, r.pool members = .ok (p, sources) ∧
      (t = ⟨group, .ofSettings r.settings .more p
        (r.settings.moreTolerance.getD 0), sources⟩ ∨
        t = ⟨group, .ofSettings r.settings .less p r.settings.lessTolerance,
          sources⟩) := by
  rw [tasksFor] at ht
  split at ht
  · cases ht
  · split at ht
    · cases ht
    · rename_i p sources hpool
      exact ⟨p, sources, hpool, by simpa using ht⟩

/-- The groups worth a search that do not hold every coin, in their order. -/
def partsOf (r : Request) (groups : List ScriptGroup) : List ScriptGroup :=
  ((groups.filter fun g => r.settings.isWorthwhile g.total r.target).mergeSort
    ScriptGroup.precedes).filter (·.members.length ≠ r.coins.size)

theorem tasks_planOf (r : Request) (groups : List ScriptGroup) :
    (r.planOf groups).tasks =
      ((r.partsOf groups).map (fun g =>
        r.tasksFor (.script g.script) g.members) ++
        [r.tasksFor .allCoins (List.range r.coins.size)]).flatMap Plan.tasks :=
  rfl

/-- The groups whose searches a plan is made of. -/
def groupsOf (r : Request) : List Group :=
  (r.partsOf r.scriptGroups).map (.script ·.script) ++ [.allCoins]

theorem tasks_plan (h : ¬r.IsIdle) :
    r.plan.tasks =
      r.groupsOf.flatMap fun group =>
        (r.tasksFor group (r.groupMembers group)).tasks := by
  have hparts : (r.partsOf r.scriptGroups).map
      (fun g => r.tasksFor (.script g.script) g.members) =
      (r.partsOf r.scriptGroups).map fun g =>
        r.tasksFor (.script g.script) (r.groupMembers (.script g.script)) := by
    apply List.map_congr_left
    intro g hg
    have hmem : g ∈ r.scriptGroups :=
      List.mem_of_mem_filter (List.mem_mergeSort.mp (List.mem_of_mem_filter hg))
    rw [members_of_mem_scriptGroups hmem]
    rfl
  rw [plan_of_not_isIdle h, tasks_planOf, hparts, groupsOf, List.flatMap_append,
    List.flatMap_append, List.flatMap_map, List.flatMap_map]
  rfl

/-- What every search of a plan is: a goal from one side over the usable coins
of its group. -/
theorem task_of_mem_plan {t : Task} (ht : t ∈ r.plan.tasks) :
    r.pool (r.groupMembers t.group) = .ok (t.goal.pool, t.sources) ∧
      (t.goal = .ofSettings r.settings .more t.goal.pool
        (r.settings.moreTolerance.getD 0) ∨
        t.goal = .ofSettings r.settings .less t.goal.pool
          r.settings.lessTolerance) := by
  have hpart :
      ∃ group, t ∈ (r.tasksFor group (r.groupMembers group)).tasks := by
    by_cases hidle : r.IsIdle
    · rw [plan_of_isIdle hidle] at ht
      cases ht
    · rw [tasks_plan hidle] at ht
      obtain ⟨group, -, ht⟩ := List.mem_flatMap.mp ht
      exact ⟨group, ht⟩
  obtain ⟨group, ht⟩ := hpart
  obtain ⟨p, sources, hpool, rfl | rfl⟩ := tasksFor_cases ht
  · exact ⟨hpool, Or.inl rfl⟩
  · exact ⟨hpool, Or.inr rfl⟩

theorem hasPool_of_mem_plan {t : Task} (ht : t ∈ r.plan.tasks) :
    r.HasPool (r.groupMembers t.group) t.goal.pool t.sources :=
  hasPool_of_pool (r.nodup_groupMembers t.group) (task_of_mem_plan ht).1

/-- Where some coin is usable, the plan searches all coins from above. -/
theorem exists_task_allCoins (htarget : 0 < r.target)
    (hlimit : 0 < r.inputLimit) {i : ℕ} (hi : 0 < r.worthAt i) :
    ∃ t ∈ r.plan.tasks, t.group = .allCoins ∧ t.goal.side = .more ∧
      t.goal.tolerance = r.settings.moreTolerance.getD 0 ∧
      r.HasPool (List.range r.coins.size) t.goal.pool t.sources := by
  obtain ⟨p, sources, hpool⟩ :=
    exists_pool (List.range r.coins.size) htarget hlimit
  have hsize := lt_size_of_worthAt_pos hi
  obtain ⟨coin, hcoin, hpos⟩ := exists_coin_of_worthAt_pos hi
  have husable : (r.usable (r.groupMembers .allCoins)).isEmpty = false :=
    hasUsable_iff.mp ⟨coin, Array.mem_of_getElem? hcoin, trivial, hpos⟩
  have hidle : ¬r.IsIdle :=
    not_isIdle_iff.mpr ⟨Nat.ne_zero_of_lt hsize, htarget, hlimit⟩
  refine ⟨⟨.allCoins,
    .ofSettings r.settings .more p (r.settings.moreTolerance.getD 0), sources⟩,
    ?_, rfl, rfl, rfl, hasPool_of_pool List.nodup_range hpool⟩
  rw [tasks_plan hidle]
  refine List.mem_flatMap.mpr
    ⟨.allCoins, List.mem_append_right _ List.mem_cons_self, ?_⟩
  rw [groupMembers] at husable ⊢
  simp [tasksFor, husable, hpool]

/-- A payment of 10000 satoshis from two coins of each of two scripts. -/
def ofFourCoins : Request where
  coins := #[.ofScript 5000 (.numbered 1 0), .ofScript 6000 (.numbered 2 0),
    .ofScript 5000 (.numbered 1 0), .ofScript 4500 (.numbered 2 0)]
  rate := ⟨0⟩
  payment := ⟨10000, .numbered 3 0⟩
  inputLimit := 2
  settings := { moreTolerance := some 1000, lessTolerance := 1000 }

end Request
end ExactSpend
