import ExactSpend.Proofs.Plan.Groups
import Mathlib

/-!
# Schedules

Which searches a plan has, and in which order, follows from the coins and the
settings alone.  Groups are filtered three times: by their total, by whether
they are the whole and by whether a coin of theirs is usable.  What remains is
fixed by the order of totals and scripts, and is searched from both sides.
-/

namespace ExactSpend

/-- What tells a search apart from the others of its plan. -/
def Task.key (t : Task) : Group × Side :=
  (t.group, t.goal.side)

/-- A search from each side over each of some groups. -/
def Group.fromBothSides (groups : List Group) : List (Group × Side) :=
  groups.flatMap fun group => [(group, .more), (group, .less)]

theorem Group.nodup_fromBothSides {groups : List Group} (h : groups.Nodup) :
    (fromBothSides groups).Nodup := by
  rw [fromBothSides, List.nodup_flatMap]
  constructor
  · intro group _
    simp
  · apply h.imp
    intro a b hne
    simp [Function.onFun, hne.symm]

namespace Request

variable {r : Request}

instance (r : Request) (group : Group) : Decidable (r.HasUsable group) :=
  decidable_of_iff _ hasUsable_iff.symm

/-! ## The script groups of a plan -/

theorem pairwise_partsOf (r : Request) (groups : List ScriptGroup) :
    (r.partsOf groups).Pairwise fun a b => a.precedes b = true :=
  (List.pairwise_mergeSort ScriptGroup.precedes_trans
    ScriptGroup.precedes_total _).filter _

theorem partsOf_perm (r : Request) (groups : List ScriptGroup) :
    (r.partsOf groups).Perm
      ((groups.filter fun g => r.settings.isWorthwhile g.total r.target).filter
        (·.members.length ≠ r.coins.size)) :=
  (List.mergeSort_perm _ _).filter _

theorem length_membersOf_ne_iff {script : Script} :
    (r.membersOf script).length ≠ r.coins.size ↔
      ∃ coin ∈ r.coins, coin.script ≠ script := by
  rw [length_membersOf, ← Array.length_toList, ne_eq,
    List.length_filter_eq_length_iff]
  simp

theorem mem_partsOf {g : ScriptGroup} :
    g ∈ r.partsOf r.scriptGroups ↔ g ∈ r.scriptGroups ∧
      r.settings.isWorthwhile (r.totalOf g.script) r.target = true ∧
      ∃ coin ∈ r.coins, coin.script ≠ g.script := by
  rw [(r.partsOf_perm _).mem_iff, List.mem_filter, List.mem_filter, and_assoc,
    ← length_membersOf_ne_iff, decide_eq_true_iff]
  refine and_congr_right fun hg => ?_
  rw [members_of_mem_scriptGroups hg, eq_groupOf_of_mem hg, groupOf]

theorem eq_groupOf_of_mem_partsOf {g : ScriptGroup}
    (hg : g ∈ r.partsOf r.scriptGroups) :
    g = r.groupOf g.script :=
  eq_groupOf_of_mem (mem_partsOf.mp hg).1

/-- The order in which the groups were formed does not matter. -/
theorem partsOf_eq_of_perm {groups : List ScriptGroup}
    (h : groups.Perm r.scriptGroups) :
    r.partsOf groups = r.partsOf r.scriptGroups := by
  have hperm : (r.partsOf groups).Perm (r.partsOf r.scriptGroups) :=
    (r.partsOf_perm groups).trans
      (((h.filter _).filter _).trans (r.partsOf_perm r.scriptGroups).symm)
  apply hperm.eq_of_pairwise _ (r.pairwise_partsOf _) (r.pairwise_partsOf _)
  intro a b ha hb hab hba
  -- Groups in each other's place have one script, and here a script has one
  -- group.
  rw [eq_groupOf_of_mem_partsOf (hperm.mem_iff.mp ha),
    eq_groupOf_of_mem_partsOf hb, ScriptGroup.script_eq_of_precedes hab hba]

/-! ## Searches in their order -/

theorem map_key_tasksFor (htarget : 0 < r.target) (hlimit : 0 < r.inputLimit)
    (group : Group) :
    (r.tasksFor group (r.groupMembers group)).tasks.map Task.key =
      if r.HasUsable group then [(group, .more), (group, .less)] else [] := by
  obtain ⟨p, sources, hpool⟩ :=
    exists_pool (r.groupMembers group) htarget hlimit
  rw [tasksFor]
  by_cases h : r.HasUsable group
  · simp [h, hasUsable_iff.mp h, hpool, Task.key, Goal.ofSettings]
  · have hempty : (r.usable (r.groupMembers group)).isEmpty = true := by
      simpa [hasUsable_iff] using h
    simp [h, hempty]

theorem map_key_flatMap (htarget : 0 < r.target) (hlimit : 0 < r.inputLimit)
    (groups : List Group) :
    (groups.flatMap fun group =>
      (r.tasksFor group (r.groupMembers group)).tasks).map Task.key =
      Group.fromBothSides (groups.filter fun group => r.HasUsable group) := by
  induction groups with
  | nil => rfl
  | cons group groups ih =>
      rw [List.flatMap_cons, List.map_append, ih,
        map_key_tasksFor htarget hlimit]
      by_cases h : r.HasUsable group
      · simp [h, Group.fromBothSides]
      · simp [h]

/-- The scripts whose coins are searched on their own. -/
structure IsSearched (r : Request) (script : Script) : Prop where
  worthwhile : r.settings.isWorthwhile (r.totalOf script) r.target = true
  exists_other : ∃ coin ∈ r.coins, coin.script ≠ script
  hasUsable : r.HasUsable (.script script)

/-- The coins of the first script have the smaller total, or equal totals and
its bytes come first. -/
def Earlier (r : Request) (a b : Script) : Prop :=
  r.totalOf a < r.totalOf b ∨ r.totalOf a = r.totalOf b ∧ a.bytes < b.bytes

theorem Earlier.ne {a b : Script} (h : r.Earlier a b) : a ≠ b := by
  rintro rfl
  rcases h with hlt | ⟨-, hlt⟩
  · exact lt_irrefl _ hlt
  · exact List.lt_irrefl _ hlt

/-- The scripts whose coins a plan searches on their own, in their order. -/
def searched (r : Request) : List Script :=
  ((r.partsOf r.scriptGroups).filter fun g =>
    r.HasUsable (.script g.script)).map (·.script)

theorem pairwise_searched (r : Request) : r.searched.Pairwise r.Earlier := by
  have hdistinct :
      (r.partsOf r.scriptGroups).Pairwise fun a b => a.script ≠ b.script :=
    (r.partsOf_perm _).symm.pairwise
      ((r.pairwise_scriptGroups.filter _).filter _) Ne.symm
  have hordered := (r.pairwise_partsOf r.scriptGroups).and hdistinct
  rw [searched, List.pairwise_map]
  apply List.Pairwise.filter
  apply hordered.imp_of_mem
  intro a b ha hb ⟨hab, hne⟩
  have htotal : a.total = r.totalOf a.script :=
    congrArg ScriptGroup.total (eq_groupOf_of_mem_partsOf ha)
  have htotal' : b.total = r.totalOf b.script :=
    congrArg ScriptGroup.total (eq_groupOf_of_mem_partsOf hb)
  rw [Earlier, ← htotal, ← htotal']
  rcases ScriptGroup.precedes_iff.mp hab with hlt | ⟨heq, hle⟩
  · exact Or.inl hlt
  · exact Or.inr ⟨heq, Script.bytes_lt_of_isLE hle hne⟩

theorem mem_searched {script : Script} : script ∈ r.searched ↔
    r.IsSearched script := by
  rw [searched, List.mem_map]
  constructor
  · rintro ⟨g, hg, rfl⟩
    rw [List.mem_filter, decide_eq_true_iff] at hg
    obtain ⟨-, hworthwhile, hother⟩ := mem_partsOf.mp hg.1
    exact ⟨hworthwhile, hother, hg.2⟩
  · intro h
    obtain ⟨coin, hcoin, hscript, -⟩ := h.hasUsable
    obtain rfl : coin.script = script := hscript
    refine ⟨r.groupOf coin.script, ?_, rfl⟩
    rw [List.mem_filter, decide_eq_true_iff]
    exact ⟨mem_partsOf.mpr ⟨mem_scriptGroups_of_mem hcoin, h.worthwhile,
      h.exists_other⟩, h.hasUsable⟩

theorem filter_groupsOf (r : Request) :
    r.groupsOf.filter (fun group => r.HasUsable group) =
      r.searched.map .script ++
        if r.HasUsable .allCoins then [.allCoins] else [] := by
  rw [groupsOf, List.filter_append, List.filter_map, searched, List.map_map,
    List.filter_singleton]
  by_cases h : r.HasUsable .allCoins
  · simp [h, Function.comp_def]
  · simp [h, Function.comp_def]

theorem map_key_plan (h : ¬r.IsIdle) :
    r.plan.tasks.map Task.key =
      Group.fromBothSides
        (r.searched.map .script ++
          if r.HasUsable .allCoins then [.allCoins] else []) := by
  obtain ⟨-, htarget, hlimit⟩ := not_isIdle_iff.mp h
  rw [tasks_plan h, map_key_flatMap htarget hlimit, filter_groupsOf]

theorem nodup_map_key_plan (r : Request) :
    (r.plan.tasks.map Task.key).Nodup := by
  by_cases h : r.IsIdle
  · rw [plan_of_isIdle h]
    exact List.nodup_nil
  · rw [map_key_plan h]
    have hscripts : (r.searched.map Group.script).Nodup :=
      (r.pairwise_searched.imp Earlier.ne).map _ fun _ _ hne heq =>
        hne (Group.script.inj heq)
    apply Group.nodup_fromBothSides
    by_cases hall : r.HasUsable .allCoins
    · rw [if_pos hall, List.nodup_append]
      simpa using hscripts
    · rwa [if_neg hall, List.append_nil]

/-- Without coins, without a positive target or without an input allowed there
is nothing to search.  Otherwise the order in which the script groups were
formed does not matter.  A plan has a search from above and then one from below
over the coins of each script whose total is worth it, that is not the only
script and has a usable coin, the smaller total first, equal totals in the order
of the scripts; then the same over all coins, if one is usable.  It has no other
search and none twice. -/
theorem plan_searches (r : Request) :
    (r.IsIdle → r.plan.tasks = []) ∧
      (¬r.IsIdle →
        (∀ groups, groups.Perm r.scriptGroups →
          (r.planOf groups).tasks = r.plan.tasks) ∧
        ∃ scripts : List Script, scripts.Pairwise r.Earlier ∧
          (∀ script, script ∈ scripts ↔ r.IsSearched script) ∧
          r.plan.tasks.map Task.key =
            Group.fromBothSides
              (scripts.map .script ++
                if r.HasUsable .allCoins then [.allCoins] else [])) ∧
      (r.plan.tasks.map Task.key).Nodup ∧
      ∀ t ∈ r.plan.tasks,
        r.pool (r.groupMembers t.group) = .ok (t.goal.pool, t.sources) ∧
          (t.goal = .ofSettings r.settings .more t.goal.pool
            (r.settings.moreTolerance.getD 0) ∨
            t.goal = .ofSettings r.settings .less t.goal.pool
              r.settings.lessTolerance) := by
  refine ⟨?_, ?_, r.nodup_map_key_plan, fun t => task_of_mem_plan⟩
  · intro h
    rw [plan_of_isIdle h]
  · intro h
    constructor
    · intro groups hperm
      rw [plan_of_not_isIdle h, tasks_planOf, tasks_planOf,
        partsOf_eq_of_perm hperm]
    · exact ⟨r.searched, r.pairwise_searched, fun _ => mem_searched,
        map_key_plan h⟩

/-- The groups formed the other way round give the same searches. -/
theorem plan_searches_of_four_coins :
    ¬ofFourCoins.IsIdle ∧
      ofFourCoins.scriptGroups.reverse.Perm ofFourCoins.scriptGroups ∧
      (ofFourCoins.planOf ofFourCoins.scriptGroups.reverse).tasks.map Task.key =
        Group.fromBothSides
          [.script (.numbered 1 0), .script (.numbered 2 0), .allCoins] := by
  have hidle : ¬ofFourCoins.IsIdle := not_isIdle_iff.mpr (by decide)
  have hperm := ofFourCoins.scriptGroups.reverse_perm
  have hkeys : ofFourCoins.plan.tasks.map Task.key =
      Group.fromBothSides
        [.script (.numbered 1 0), .script (.numbered 2 0), .allCoins] := by
    cbv
  have hsame := ((plan_searches ofFourCoins).2.1 hidle).1 _ hperm
  exact ⟨hidle, hperm, hsame ▸ hkeys⟩

end Request
end ExactSpend
