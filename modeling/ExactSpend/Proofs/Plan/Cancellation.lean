import ExactSpend.Proofs.Plan.Arrivals
import ExactSpend.Proofs.Plan.Schedule
import ExactSpend.Signal

/-!
# Plans that are cancelled

The searches of a plan look at a child of the caller's signal.  A search that
begins when it is raised ends before its first iteration and selects nothing,
whether it looks at the signal first or at its budget.  So a plan that is
cancelled yields what the searches yield that had ended by then.  What every
single search tells can be read off the events of the whole plan, since no two
searches have the same label.
-/

namespace ExactSpend

/-! ## Raised signals -/

namespace Switchboard

variable {b : Switchboard} {s : Signal}

/-- The child that a signal gets when one is made. -/
def childOf (b : Switchboard) (s : Signal) : Signal :=
  ⟨b.flags, s.observed⟩

theorem isCancelled_childOf (hflag : b.flags ∉ b.raised) :
    b.isCancelled (b.childOf s) = b.isCancelled s := by
  have hown : b.raised.contains b.flags = false := by simpa using hflag
  rw [isCancelled, Signal.observed, List.any_cons, childOf, hown, Bool.false_or]
  rfl

theorem isCancelled_raise_childOf :
    (b.raise s).isCancelled (b.childOf s) = true := by
  simp [isCancelled, raise, childOf, Signal.observed]

end Switchboard

theorem Goal.search_of_raised (g : Goal) (limits : Limits) :
    g.search limits (fun _ => true) =
      ⟨if limits.iterations = 0 then .budgetSpent else .cancelled,
        none, none, 0⟩ := by
  obtain ⟨iterations, checkInterval⟩ := limits
  cases iterations with
  | zero => rfl
  | succ iterations => simp [search, explore, Limits.stops]

namespace Disturbance

variable {d : Disturbance} {limits : Limits} {t : Task} {finished : ℕ}

theorem isCancelled_of_lt (hbefore : d.cancelledBefore = false)
    (hlt : finished < d.cancelAfter) : d.isCancelled finished = false := by
  simp [isCancelled, hbefore, hlt]

theorem isCancelled_of_le (hpos : 0 < d.cancelAfter)
    (hle : d.cancelAfter ≤ finished) :
    d.isCancelled finished = true := by
  simp [isCancelled, hpos, hle]

theorem isCancelled_of_cancelledBefore (hbefore : d.cancelledBefore = true) :
    d.isCancelled finished = true := by
  simp [isCancelled, hbefore]

theorem report_of_isCancelled (h : d.isCancelled finished = true) :
    d.report limits finished t =
      ⟨if limits.iterations = 0 then .budgetSpent else .cancelled,
        none, none, 0⟩ := by
  rw [report, h, Goal.search_of_raised]

/-- A search that begins after the signal was raised selects nothing. -/
theorem subset?_arrival_of_isCancelled (h : d.isCancelled finished = true) :
    (d.arrival limits finished t).subset? = none := by
  rw [arrival, report_of_isCancelled h]
  split
  · rfl
  · simp [Arrival.subset?, Report.outcome, Outcome.selection?]

theorem arrivals_take_append_drop (d : Disturbance) (limits : Limits)
    (tasks : List Task) (k : ℕ) :
    d.arrivals limits tasks = d.arrivals limits (tasks.take k) ++
      (tasks.drop k).mapIdx fun i t =>
        d.arrival limits (i + (tasks.take k).length) t := by
  rw [arrivals, arrivals, ← List.mapIdx_append, List.take_append_drop]

/-- When the signal is raised as the `k`-th search ends, then what arrives is
what the first `k` searches alone give, and nothing that selects anything. -/
theorem arrivals_cancelAfter (failing : Option Side) {k : ℕ} (hk : 0 < k)
    (limits : Limits) (tasks : List Task) :
    ∃ silent, ({ cancelAfter := k, failing } : Disturbance).arrivals
      limits tasks =
        ({ failing } : Disturbance).arrivals limits (tasks.take k) ++ silent ∧
      ∀ a ∈ silent, a.subset? = none := by
  have hfirst : ({ cancelAfter := k, failing } : Disturbance).arrivals limits
    (tasks.take k) =
      ({ failing } : Disturbance).arrivals limits (tasks.take k) := by
    rw [arrivals, arrivals, List.mapIdx_eq_mapIdx_iff]
    intro i hi
    have hlt : i < k := lt_of_lt_of_le hi (List.length_take_le k tasks)
    rw [arrival, arrival, report, report, isCancelled_of_lt rfl hlt]
    rfl
  have hsplit :=
    arrivals_take_append_drop { cancelAfter := k, failing } limits tasks k
  rw [hfirst] at hsplit
  refine ⟨_, hsplit, fun a ha => ?_⟩
  obtain ⟨i, hi, rfl⟩ := List.mem_mapIdx.mp ha
  have hlength : (tasks.take k).length = k := by
    rw [List.length_drop] at hi
    rw [List.length_take]
    omega
  exact subset?_arrival_of_isCancelled
    (isCancelled_of_le hk (by simp [hlength]))

end Disturbance

/-! ## Events of one search -/

/-- The search that an event comes from. -/
def Event.label : Event → Label
  | dispatched label => label
  | cancelled label _ => label
  | budgetSpent label _ => label
  | finished label _ => label

/-- A search tells how it finished, and before that what stopped it, if anything
did. -/
theorem Report.events_eq (r : Report) (label : Label) :
    r.events label =
      match r.ending with
      | .cancelled => [.cancelled label r.iterations, .finished label r.outcome]
      | .budgetSpent =>
          [.budgetSpent label r.iterations, .finished label r.outcome]
      | .matched | .exhausted => [.finished label r.outcome] := by
  rw [events, interruption?]
  cases r.ending <;> rfl

theorem Report.label_of_mem_events {r : Report} {label : Label} {e : Event}
    (he : e ∈ r.events label) : e.label = label := by
  rw [events_eq] at he
  split at he
  · rcases List.mem_pair.mp he with rfl | rfl <;> rfl
  · rcases List.mem_pair.mp he with rfl | rfl <;> rfl
  · rw [List.mem_singleton.mp he, Event.label]
  · rw [List.mem_singleton.mp he, Event.label]

theorem Report.filter_events (r : Report) (label : Label) :
    (r.events label).filter (fun e => e.label = label) = r.events label :=
  List.filter_eq_self.mpr fun _ he => decide_eq_true (label_of_mem_events he)

theorem filter_events_of_ne {tasks : List Task} {label : Label}
    (hne : ∀ t ∈ tasks, t.label ≠ label) (report : ℕ → Task → Report) :
    ((tasks.mapIdx fun i t => (report i t).events t.label).flatten.filter
      fun e => e.label = label) = [] := by
  apply List.filter_eq_nil_iff.mpr
  intro e he
  obtain ⟨events, hevents, he⟩ := List.mem_flatten.mp he
  obtain ⟨i, hi, rfl⟩ := List.mem_mapIdx.mp hevents
  rw [Report.label_of_mem_events he]
  simpa using hne _ (List.getElem_mem hi)

theorem Disturbance.filter_events (d : Disturbance) (limits : Limits)
    {tasks : List Task} (hlabels : (tasks.map Task.label).Nodup) {i : ℕ}
    {t : Task} (ht : tasks[i]? = some t) :
    (d.events limits tasks).filter (fun e => e.label = t.label) =
      (d.report limits i t).events t.label := by
  obtain ⟨hi, rfl⟩ := List.getElem?_eq_some_iff.mp ht
  have hsplit : tasks = tasks.take i ++ tasks[i] :: tasks.drop (i + 1) := by
    rw [← List.drop_eq_getElem_cons hi, List.take_append_drop]
  have hlength : (tasks.take i).length = i := List.length_take_of_le hi.le
  rw [hsplit, List.map_append, List.map_cons, List.nodup_append,
    List.nodup_cons] at hlabels
  obtain ⟨-, ⟨hafter, -⟩, hbefore⟩ := hlabels
  have hevents : d.events limits tasks =
      ((tasks.take i).mapIdx fun j t =>
        (d.report limits j t).events t.label).flatten ++
        ((d.report limits i tasks[i]).events tasks[i].label ++
          ((tasks.drop (i + 1)).mapIdx fun j t =>
            (d.report limits (j + 1 + i) t).events t.label).flatten) := by
    rw [events]
    conv_lhs => rw [hsplit]
    rw [List.mapIdx_append, List.mapIdx_cons, List.flatten_append,
      List.flatten_cons, hlength, Nat.zero_add]
  rw [hevents, List.filter_append, List.filter_append, Report.filter_events,
    filter_events_of_ne, filter_events_of_ne, List.nil_append, List.append_nil]
  · intro t ht heq
    exact hafter (heq ▸ List.mem_map_of_mem ht)
  · intro t ht
    exact hbefore _ (List.mem_map_of_mem ht) _ List.mem_cons_self

namespace Request

variable {r : Request}

theorem nodup_map_label_plan (r : Request) :
    (r.plan.tasks.map Task.label).Nodup := by
  have hkeys := r.nodup_map_key_plan
  have hkey : Task.key = (fun label : Label => (label.group, label.side)) ∘
      Task.label := rfl
  rw [hkey, ← List.map_map] at hkeys
  exact hkeys.of_map _

/-- The searches of a plan see a signal that the caller raises as the `k`-th of
them ends.  Then the subsets are those that the first `k` searches alone yield
when nothing is cancelled.  The later searches select nothing: they end without
an iteration and without a match, cancelled or, if no iteration is allowed, with
their budget spent.  In any case every search of a plan tells how it finished,
once and as the last thing, and before that only, and once, that it was
cancelled or that its budget was spent, if that is why it ended.  When the
signal is raised before the first search, there are no subsets. -/
theorem subsets_cancelAfter (r : Request) (failing : Option Side) {k : ℕ}
    (hk : 0 < k) :
    (∀ (b : Switchboard) (s : Signal),
      b.flags ∉ b.raised → b.isCancelled s = false → ∀ finished,
        (if k ≤ finished then b.raise s else b).isCancelled (b.childOf s) =
          ({ cancelAfter := k, failing } : Disturbance).isCancelled finished) ∧
      r.subsets { cancelAfter := k, failing } =
        harvest (({ failing } : Disturbance).arrivals r.settings.limits
          (r.plan.tasks.take k)) ∧
      (∀ i t, k ≤ i → r.plan.tasks[i]? = some t →
        (({ cancelAfter := k, failing } : Disturbance).arrival
            r.settings.limits i t).subset? = none ∧
          ({ cancelAfter := k, failing } : Disturbance).report
              r.settings.limits i t =
            ⟨if r.settings.limits.iterations = 0 then .budgetSpent
              else .cancelled, none, none, 0⟩ ∧
          (({ cancelAfter := k, failing } : Disturbance).report
            r.settings.limits i t).outcome = .noMatch) ∧
      (∀ (d : Disturbance) i t report, r.plan.tasks[i]? = some t →
        d.report r.settings.limits i t = report →
        (d.events r.settings.limits r.plan.tasks).filter
            (fun e => e.label = t.label) =
          match report.ending with
          | .cancelled =>
            [.cancelled t.label report.iterations,
              .finished t.label report.outcome]
          | .budgetSpent =>
            [.budgetSpent t.label report.iterations,
              .finished t.label report.outcome]
          | .matched | .exhausted => [.finished t.label report.outcome]) ∧
      ∀ d : Disturbance, d.cancelledBefore = true → r.subsets d = [] := by
  refine ⟨?_, ?_, ?_, ?_, ?_⟩
  · intro b s hflag hbefore finished
    by_cases hle : k ≤ finished
    · rw [if_pos hle, Switchboard.isCancelled_raise_childOf,
        Disturbance.isCancelled_of_le hk hle]
    · rw [if_neg hle, Switchboard.isCancelled_childOf hflag, hbefore,
        Disturbance.isCancelled_of_lt rfl (not_le.mp hle)]
  · obtain ⟨silent, harrivals, hsilent⟩ :=
      Disturbance.arrivals_cancelAfter failing hk r.settings.limits r.plan.tasks
    rw [subsets, harrivals, harvest_append_silent hsilent]
  · intro i t hi _
    have hcancelled :
        ({ cancelAfter := k, failing } : Disturbance).isCancelled i = true :=
      Disturbance.isCancelled_of_le hk hi
    have hreport :=
      @Disturbance.report_of_isCancelled _ r.settings.limits t i hcancelled
    refine ⟨Disturbance.subset?_arrival_of_isCancelled hcancelled, hreport, ?_⟩
    rw [hreport]
    rfl
  · rintro d i t report ht rfl
    rw [d.filter_events _ r.nodup_map_label_plan ht]
    exact Report.events_eq _ _
  · intro d hbefore
    have hsilent : ∀ a ∈ d.arrivals r.settings.limits r.plan.tasks,
        a.subset? = none := by
      intro a ha
      obtain ⟨i, hi, rfl⟩ := List.mem_mapIdx.mp ha
      exact Disturbance.subset?_arrival_of_isCancelled
        (Disturbance.isCancelled_of_cancelledBefore hbefore)
    exact gather_of_silent hsilent

/-- Cancelled as the first search ends, the plan yields what this search
found. -/
theorem subsets_cancelAfter_of_four_coins :
    0 < 1 ∧ ofFourCoins.subsets { cancelAfter := 1 } = [[0, 2]] := by
  have hfirst : harvest (({} : Disturbance).arrivals ofFourCoins.settings.limits
      (ofFourCoins.plan.tasks.take 1)) = [[0, 2]] := by
    cbv
  have hk : 0 < 1 := by decide
  exact ⟨hk, (subsets_cancelAfter ofFourCoins none hk).2.1.trans hfirst⟩

end Request
end ExactSpend
