import ExactSpend.Deadline
import ExactSpend.Proofs.Plan.Tasks
import ExactSpend.Proofs.Search.FirstMatch
import ExactSpend.Proofs.Search.Record
import Mathlib.Data.List.Sort

/-!
# What a plan yields

Searches report in whatever order they end, and some may be cut off or lost.
Every subset harvested is one that the request may spend; a subset that some
search picked is harvested in some order of its coins.
-/

namespace ExactSpend

/-! ## Gathering -/

section Gather

variable {α : Type*} {subset? : α → Option (List ℕ)}

theorem exists_of_mem_gather {wanted : ℕ} {seen : Std.TreeSet (List ℕ)}
    {entries : List α}
    {subset : List ℕ} (h : subset ∈ gather subset? wanted seen entries) :
    ∃ a ∈ entries, subset? a = some subset := by
  fun_induction gather subset? wanted seen entries with
  | case1 => cases h
  | case2 => cases h
  | case3 wanted seen a rest hnone ih =>
      obtain ⟨b, hb, heq⟩ := ih h
      exact ⟨b, List.mem_cons_of_mem a hb, heq⟩
  | case4 wanted seen a rest first hfirst key hseen ih =>
      obtain ⟨b, hb, heq⟩ := ih h
      exact ⟨b, List.mem_cons_of_mem a hb, heq⟩
  | case5 wanted seen a rest first hfirst key hfresh ih =>
      rcases List.mem_cons.mp h with rfl | h
      · exact ⟨a, List.mem_cons_self, hfirst⟩
      · obtain ⟨b, hb, heq⟩ := ih h
        exact ⟨b, List.mem_cons_of_mem a hb, heq⟩

/-- With room for every source, what a source gives is gathered unless the
same coins were seen before. -/
theorem seen_or_gathered {wanted : ℕ} {seen : Std.TreeSet (List ℕ)}
    {entries : List α} {b : α}
    {subset : List ℕ} (hwanted : entries.length ≤ wanted) (hb : b ∈ entries)
    (hsubset : subset? b = some subset) :
    subset.mergeSort ∈ seen ∨
      ∃ kept ∈ gather subset? wanted seen entries,
        kept.mergeSort = subset.mergeSort := by
  fun_induction gather subset? wanted seen entries with
  | case1 seen entries =>
      rw [List.length_eq_zero_iff.mp (Nat.le_zero.mp hwanted)] at hb
      cases hb
  | case2 => cases hb
  | case3 wanted seen a rest hnone ih =>
      rcases List.mem_cons.mp hb with rfl | hb
      · rw [hnone] at hsubset
        cases hsubset
      · exact ih (Nat.le_of_succ_le hwanted) hb
  | case4 wanted seen a rest first hfirst key hseen ih =>
      rcases List.mem_cons.mp hb with rfl | hb
      · obtain rfl := Option.some.inj (hfirst.symm.trans hsubset)
        exact Or.inl (Std.TreeSet.contains_iff_mem.mp hseen)
      · exact ih (Nat.le_of_succ_le hwanted) hb
  | case5 wanted seen a rest first hfirst key hfresh ih =>
      rcases List.mem_cons.mp hb with rfl | hb
      · obtain rfl := Option.some.inj (hfirst.symm.trans hsubset)
        exact Or.inr ⟨first, List.mem_cons_self, rfl⟩
      · rcases ih (Nat.le_of_succ_le_succ hwanted) hb with
            hseen | ⟨kept, hkept, heq⟩
        · rcases Std.TreeSet.mem_insert.mp hseen with hsame | hseen
          · exact Or.inr ⟨first, List.mem_cons_self,
              Std.LawfulEqOrd.eq_of_compare hsame⟩
          · exact Or.inl hseen
        · exact Or.inr ⟨kept, List.mem_cons_of_mem first hkept, heq⟩

theorem mergeSort_eq_of_perm {xs ys : List ℕ} (h : xs.Perm ys) :
    xs.mergeSort = ys.mergeSort := by
  have hperm : (xs.mergeSort).Perm ys.mergeSort :=
    ((List.mergeSort_perm xs _).trans h).trans (List.mergeSort_perm ys _).symm
  exact hperm.eq_of_sortedLE List.sortedLE_mergeSort List.sortedLE_mergeSort

theorem not_mem_seen_of_mem_gather {wanted : ℕ} {seen : Std.TreeSet (List ℕ)}
    {entries : List α}
    {kept : List ℕ} (h : kept ∈ gather subset? wanted seen entries) :
    kept.mergeSort ∉ seen := by
  fun_induction gather subset? wanted seen entries with
  | case1 => cases h
  | case2 => cases h
  | case3 wanted seen a rest hnone ih => exact ih h
  | case4 wanted seen a rest first hfirst key hseen ih => exact ih h
  | case5 wanted seen a rest first hfirst key hfresh ih =>
      rcases List.mem_cons.mp h with rfl | h
      · exact fun hmem => hfresh (Std.TreeSet.contains_iff_mem.mpr hmem)
      · exact fun hmem => ih h (Std.TreeSet.mem_insert.mpr (Or.inr hmem))

/-- No set of coins is gathered twice. -/
theorem pairwise_gather {wanted : ℕ} {seen : Std.TreeSet (List ℕ)}
    {entries : List α} :
    (gather subset? wanted seen entries).Pairwise fun s t => ¬s.Perm t := by
  fun_induction gather subset? wanted seen entries with
  | case1 => exact List.Pairwise.nil
  | case2 => exact List.Pairwise.nil
  | case3 wanted seen a rest hnone ih => exact ih
  | case4 wanted seen a rest first hfirst key hseen ih => exact ih
  | case5 wanted seen a rest first hfirst key hfresh ih =>
      refine List.pairwise_cons.mpr ⟨fun kept hkept hperm => ?_, ih⟩
      apply not_mem_seen_of_mem_gather hkept
      rw [← mergeSort_eq_of_perm hperm]
      exact Std.TreeSet.mem_insert.mpr (Or.inl Std.ReflCmp.compare_self)

theorem gather_nil (wanted : ℕ) (seen : Std.TreeSet (List ℕ)) :
    gather subset? wanted seen [] = [] := by
  cases wanted <;> rfl

/-- What is wanted beyond the number of sources makes no difference. -/
theorem gather_of_length_le {wanted : ℕ} {seen : Std.TreeSet (List ℕ)}
    {entries : List α} (hle : entries.length ≤ wanted) : ∀ {wanted' : ℕ},
    entries.length ≤ wanted' → gather subset? wanted seen entries =
        gather subset? wanted' seen entries := by
  fun_induction gather subset? wanted seen entries with
  | case1 seen entries =>
      intro wanted' _
      rw [List.length_eq_zero_iff.mp (Nat.le_zero.mp hle), gather_nil]
  | case2 => exact fun _ => (gather_nil ..).symm
  | case3 wanted seen a rest hnone ih =>
      intro wanted' hle'
      obtain ⟨more, rfl⟩ := Nat.exists_eq_add_of_le' (Nat.one_le_of_lt hle')
      simp only [gather, hnone]
      exact ih (Nat.le_of_succ_le hle) (Nat.le_of_succ_le hle')
  | case4 wanted seen a rest first hfirst key hseen ih =>
      intro wanted' hle'
      obtain ⟨more, rfl⟩ := Nat.exists_eq_add_of_le' (Nat.one_le_of_lt hle')
      simp only [gather, hfirst]
      rw [if_pos hseen]
      exact ih (Nat.le_of_succ_le hle) (Nat.le_of_succ_le hle')
  | case5 wanted seen a rest first hfirst key hfresh ih =>
      intro wanted' hle'
      obtain ⟨more, rfl⟩ := Nat.exists_eq_add_of_le' (Nat.one_le_of_lt hle')
      simp only [gather, hfirst]
      rw [if_neg hfresh,
        ih (Nat.le_of_succ_le_succ hle) (Nat.le_of_succ_le_succ hle')]

theorem gather_of_silent {wanted : ℕ} {seen : Std.TreeSet (List ℕ)}
    {entries : List α} (hsilent : ∀ a ∈ entries, subset? a = none) :
    gather subset? wanted seen entries = [] := by
  apply List.eq_nil_iff_forall_not_mem.mpr
  intro subset hmem
  obtain ⟨a, ha, hsome⟩ := exists_of_mem_gather hmem
  exact absurd ((hsilent a ha).symm.trans hsome) (by simp)

/-- Sources at the end that give nothing may be left out. -/
theorem gather_append_silent {wanted : ℕ} {seen : Std.TreeSet (List ℕ)}
    {entries silent : List α} (hsilent : ∀ a ∈ silent, subset? a = none) :
    gather subset? wanted seen (entries ++ silent) =
      gather subset? wanted seen entries := by
  fun_induction gather subset? wanted seen entries with
  | case1 => exact gather.eq_1 ..
  | case2 => exact gather_of_silent hsilent
  | case3 wanted seen a rest hnone ih =>
      simp only [List.cons_append, gather, hnone]
      exact ih
  | case4 wanted seen a rest first hfirst key hseen ih =>
      simp only [List.cons_append, gather, hfirst]
      rw [if_pos hseen]
      exact ih
  | case5 wanted seen a rest first hfirst key hfresh ih =>
      simp only [List.cons_append, gather, hfirst]
      rw [if_neg hfresh, ih]

end Gather

theorem harvest_append_silent {arrivals silent : List Arrival}
    (hsilent : ∀ a ∈ silent, a.subset? = none) :
    harvest (arrivals ++ silent) = harvest arrivals := by
  rw [harvest, gather_append_silent hsilent]
  exact gather_of_length_le (by simp) le_rfl

/-! ## Arrivals -/

/-- The report of an arrival, if there is one, is that of a search of a task. -/
structure Arrival.Answers (a : Arrival) (tasks : List Task) : Prop where
  mem : a.task ∈ tasks
  searched : ∀ report, a.report = some report →
    ∃ limits signal, report = a.task.goal.search limits signal

/-- A way to run the searches of a plan.  They may arrive in any order, be cut
off, fail or be left out, but what arrives answers a search of the plan. -/
structure Courier where
  deliver : List Task → Delivery
  answers : ∀ tasks, ∀ a ∈ (deliver tasks).arrivals, a.Answers tasks

theorem Outcome.selection?_eq_some_iff {o : Outcome} {s : Selection} :
    o.selection? = some s ↔ o = .found s ∨ o = .bestEffort s := by
  cases o <;> simp [selection?]

/-- A search selects the coins at the positions of its match or best effort,
unless it failed or was cancelled. -/
def Arrival.Selects (a : Arrival) (subset : List ℕ) : Prop :=
  ∃ report s, a.report = some report ∧ report.ending ≠ .cancelled ∧
    (report.outcome = .found s ∨ report.outcome = .bestEffort s) ∧
    subset = a.task.coinsAt s.positions

theorem Arrival.subset?_eq_some_iff {a : Arrival} {subset : List ℕ} :
    a.subset? = some subset ↔ a.Selects subset := by
  unfold Arrival.subset? Selects
  cases hreport : a.report with
  | none => simp
  | some report =>
      by_cases hcancelled : report.ending = .cancelled
      · simp [hcancelled]
      · simp only [← Outcome.selection?_eq_some_iff]
        cases hs : report.outcome.selection? with
        | none => simp [hs]
        | some s => simp [hs, eq_comm]

/-- What a search selects are the coins at positions that serve its goal. -/
theorem Arrival.Answers.exists_positions {a : Arrival} {tasks : List Task}
    (ha : a.Answers tasks) {subset : List ℕ} (h : a.Selects subset) :
    ∃ positions, subset = a.task.coinsAt positions ∧
      a.task.goal.Serves positions := by
  obtain ⟨report, s, hreport, -, hs, rfl⟩ := h
  obtain ⟨limits, signal, rfl⟩ := ha.searched report hreport
  exact ⟨s.positions, rfl,
    Goal.serves_of_selection? (Outcome.selection?_eq_some_iff.mpr hs)⟩

theorem Arrival.subset?_of_found {t : Task} {limits : Limits} {s : Selection}
    (hs : (t.goal.search limits fun _ => false).found = some s) :
    Arrival.subset? ⟨t, some (t.goal.search limits fun _ => false)⟩ =
      some (t.coinsAt s.positions) := by
  have hne := t.goal.search_ne_cancelled limits
  simp [Arrival.subset?, hne, Report.outcome, hs, Outcome.selection?]

/-- Every search of a plan arrives with the report that it gives when nothing
cuts it off. -/
def Delivery.IsFull (d : Delivery) (limits : Limits)
    (tasks : List Task) : Prop :=
  d.arrivals.Perm (tasks.map fun t =>
    ⟨t, some (t.goal.search limits fun _ => false)⟩)

theorem Delivery.IsFull.answers {d : Delivery} {limits : Limits}
    {tasks : List Task}
    (h : d.IsFull limits tasks) : ∀ a ∈ d.arrivals, a.Answers tasks := by
  intro a ha
  obtain ⟨t, ht, rfl⟩ := List.mem_map.mp (h.mem_iff.mp ha)
  refine ⟨ht, fun report hreport => ⟨limits, fun _ => false, ?_⟩⟩
  exact (Option.some.inj hreport).symm

/-- Whatever goes wrong while the searches run, what arrives answers them. -/
theorem Disturbance.answers (d : Disturbance) (limits : Limits)
    (tasks : List Task) :
    ∀ a ∈ d.arrivals limits tasks, a.Answers tasks := by
  intro a ha
  obtain ⟨i, hi, rfl⟩ := List.mem_mapIdx.mp ha
  refine ⟨List.getElem_mem hi, fun report hreport => ?_⟩
  unfold arrival at hreport
  split at hreport
  · cases hreport
  · exact ⟨limits, fun _ => d.isCancelled i, (Option.some.inj hreport).symm⟩

namespace Deadline

theorem report?_eq_some {limits : Limits} {allowance : ℕ} {t : Task}
    {report : Report} (h : report? limits allowance t = some report) :
    report = t.goal.search ⟨min limits.iterations allowance,
      limits.checkInterval⟩ (fun _ => false) ∧
      (report.ending = .budgetSpent → limits.iterations ≤ allowance) := by
  unfold report? at h
  simp only at h
  split at h
  · cases h
  · rename_i hends
    obtain rfl := Option.some.inj h
    refine ⟨rfl, fun hspent => ?_⟩
    by_contra hshort
    exact hends ⟨hspent, Or.inl (not_le.mp hshort)⟩

/-- A search that ended in time reports what it reports without a deadline. -/
theorem report?_eq_search {limits : Limits} {allowance : ℕ} {t : Task}
    {report : Report} (h : report? limits allowance t = some report) :
    report = t.goal.search limits fun _ => false := by
  obtain ⟨rfl, hspent⟩ := report?_eq_some h
  by_cases hallowed : limits.iterations ≤ allowance
  · rw [min_eq_left hallowed]
  · have hends := mt hspent hallowed
    exact (Goal.search_of_iterations_le (min_le_left _ _) hends).symm

theorem arrivals_deliver (limits : Limits) (milliseconds : ℕ)
    (tasks : List Task) :
    (deliver limits milliseconds tasks).arrivals =
      tasks.filterMap fun t =>
        (report? limits (milliseconds * pace) t).map fun report =>
          ⟨t, some report⟩ := by
  rw [deliver, List.filterMap_map]
  rfl

/-- Deliveries before a deadline. -/
def courier (limits : Limits) (milliseconds : ℕ) : Courier where
  deliver := deliver limits milliseconds
  answers tasks a ha := by
    rw [arrivals_deliver] at ha
    obtain ⟨t, ht, heq⟩ := List.mem_filterMap.mp ha
    obtain ⟨report, hreport, rfl⟩ := Option.map_eq_some_iff.mp heq
    refine ⟨ht, fun report' hreport' => ⟨limits, fun _ => false, ?_⟩⟩
    obtain rfl := Option.some.inj hreport'
    exact report?_eq_search hreport

/-- When every search ended in time, nothing was cut off. -/
theorem isFull_of_isComplete {limits : Limits} {milliseconds : ℕ}
    {tasks : List Task}
    (h : (deliver limits milliseconds tasks).isComplete = true) :
    (deliver limits milliseconds tasks).IsFull limits tasks := by
  have hsome :
      ∀ t ∈ tasks, (report? limits (milliseconds * pace) t).isSome = true := by
    simpa [deliver] using h
  rw [Delivery.IsFull, arrivals_deliver, ← List.filterMap_eq_map]
  apply List.Perm.of_eq
  apply List.filterMap_congr
  intro t ht
  obtain ⟨report, hreport⟩ := Option.isSome_iff_exists.mp (hsome t ht)
  rw [hreport, report?_eq_search hreport]
  rfl

end Deadline

namespace Request

variable {r : Request}

/-- Whatever is harvested from the searches of a plan may be spent. -/
theorem affords_of_mem_harvest {arrivals : List Arrival}
    (hanswers : ∀ a ∈ arrivals, a.Answers r.plan.tasks) {subset : List ℕ}
    (h : subset ∈ harvest arrivals) : r.Affords subset := by
  obtain ⟨a, ha, hsubset⟩ := exists_of_mem_gather h
  obtain ⟨positions, rfl, hserves⟩ :=
    (hanswers a ha).exists_positions (Arrival.subset?_eq_some_iff.mp hsubset)
  exact (hasPool_of_mem_plan (hanswers a ha).mem).affords hserves.choice

theorem exists_harvest_perm {arrivals : List Arrival} {a : Arrival}
    (ha : a ∈ arrivals) {subset : List ℕ} (h : a.subset? = some subset) :
    ∃ kept ∈ harvest arrivals, kept.Perm subset := by
  rcases seen_or_gathered le_rfl ha h with hseen | ⟨kept, hkept, heq⟩
  · exact absurd hseen Std.TreeSet.not_mem_emptyc
  · have hkey : (kept.mergeSort).Perm subset :=
      heq ▸ List.mergeSort_perm subset _
    exact ⟨kept, hkept, (List.mergeSort_perm kept _).symm.trans hkey⟩

/-- When nothing cuts the searches off and the one over all coins from above
does not run out of iterations, a set of coins worth the target within the
tolerance is harvested if there is one. -/
theorem exists_harvest_inBand {d : Delivery} {limits : Limits}
    (hfull : d.IsFull limits r.plan.tasks)
    (hbudget : ∀ t ∈ r.plan.tasks, t.group = .allCoins → t.goal.side = .more →
      (t.goal.search limits fun _ => false).ending ≠ .budgetSpent)
    (htarget : 0 < r.target) {indices : List ℕ} (hindices : r.Affords indices)
    (hmax : r.worth indices ≤ signedMax) (hlow : r.target ≤ r.worth indices)
    (hhigh : r.worth indices ≤
      r.target + (r.settings.moreTolerance.getD 0 : ℕ)) :
    ∃ subset ∈ harvest d.arrivals, r.target ≤ r.worth subset ∧
      r.worth subset ≤ r.target + (r.settings.moreTolerance.getD 0 : ℕ) := by
  obtain ⟨i, hi⟩ : ∃ i, i ∈ indices := by
    apply List.exists_mem_of_ne_nil
    rintro rfl
    exact absurd hlow (not_le.mpr htarget)
  have hlimit : 0 < r.inputLimit :=
    lt_of_lt_of_le (List.length_pos_of_mem hi) hindices.length_le
  obtain ⟨t, ht, hgroup, hside, htolerance, hpool⟩ :=
    exists_task_allCoins htarget hlimit (hindices.worth_pos i hi)
  have hgoal : t.goal.target = r.target := hpool.target_eq
  have htarget_le : t.goal.target ≤ signedMax :=
    hgoal ▸ r.payment.target_le r.rate
  -- The coins stand somewhere in the pool, so the search has a match to find.
  obtain ⟨l, hl, hsum⟩ := hpool.exists_isChoice hindices fun j hj =>
    List.mem_range.mpr (lt_size_of_worthAt_pos (hindices.worth_pos j hj))
  have hmatches : t.goal.Matches l := by
    refine ⟨hl, (Goal.isMatch_more_iff hside).mpr ?_⟩
    rw [hsum, hgoal, htolerance]
    exact ⟨hlow, hhigh, hmax⟩
  have hfound :=
    Goal.search_found_of_matches htarget_le (hbudget t ht hgroup hside)
    (t.goal.search_ne_cancelled limits) hmatches
  obtain ⟨s, hs⟩ := Option.isSome_iff_exists.mp hfound
  have hfirst := (Goal.isFirstMatch_of_search_found htarget_le hs).2.1
  have harrival :
      ⟨t, some (t.goal.search limits fun _ => false)⟩ ∈ d.arrivals :=
    hfull.mem_iff.mpr (List.mem_map.mpr ⟨t, ht, rfl⟩)
  obtain ⟨kept, hkept, hperm⟩ :=
    exists_harvest_perm harrival (Arrival.subset?_of_found hs)
  have hworth : r.worth kept = t.goal.pool.sum s.positions := by
    rw [worth_perm hperm, hpool.sum_eq hfirst.choice.lt_size]
    rfl
  obtain ⟨hlow', hhigh', -⟩ := (Goal.isMatch_more_iff hside).mp hfirst.inBand
  rw [hgoal] at hlow' hhigh'
  rw [htolerance] at hhigh'
  exact ⟨kept, hkept, hworth ▸ hlow', hworth ▸ hhigh'⟩

end Request
end ExactSpend
