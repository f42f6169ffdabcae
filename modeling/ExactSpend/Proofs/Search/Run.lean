import ExactSpend.Proofs.Search.Invariant

/-!
# Runs of a search

A search repeats turns until one of them ends it, the iterations run out or the
signal stops it.  What every turn preserves holds at the walk at which the
search ends, and two searches whose turns make the same moves take the same
course.  Results about the outcome of a search build on these two inductions.
-/

namespace ExactSpend

/-- Two searches end alike after as many iterations; their records may
differ. -/
structure Report.SameCourse (r r' : Report) : Prop where
  ending_eq : r'.ending = r.ending
  found_eq : r'.found = r.found
  iterations_eq : r'.iterations = r.iterations

theorem Report.SameCourse.eq_of_record {r r' : Report} (h : r.SameCourse r')
    (hrecord : r.record = r'.record) : r = r' := by
  obtain ⟨hending, hfound, hiterations⟩ := h
  cases r
  cases r'
  simp_all

/-- A signal that is never raised stops nothing. -/
theorem Limits.stops_never (limits : Limits) :
    limits.stops (fun _ => false) = fun _ => false := by
  funext done
  simp [stops]

namespace Goal

variable {g : Goal} {tails : Array ℤ}

/-- The reports of a search that ends at a walk with a record. -/
inductive EndsAt (g : Goal) (tails : Array ℤ) (w : Walk)
    (record : Option Selection) :
    Report → Prop
  | budgetSpent (iterations : ℕ) :
      EndsAt g tails w record ⟨.budgetSpent, none, record, iterations⟩
  | cancelled (iterations : ℕ) :
      EndsAt g tails w record ⟨.cancelled, none, record, iterations⟩
  | matched (iterations : ℕ) {t : Turn} (ht : g.TurnsTo tails w t)
      {taken : List ℕ} (hmove : t.move = .found taken) :
      EndsAt g tails w record
        ⟨.matched, some (Selection.ofPositions g.pool taken.reverse),
          t.offers.foldl (g.weigh tails) record, iterations⟩
  | exhausted (iterations : ℕ) {t : Turn} (ht : g.TurnsTo tails w t)
      (hmove : t.move = .finished) :
      EndsAt g tails w record
        ⟨.exhausted, none, t.offers.foldl (g.weigh tails) record, iterations⟩

/-- An invariant of the turns holds where the search ends. -/
theorem explore_ends {Inv : Walk → Option Selection → Prop}
    (hstep : ∀ w record t w', Inv w record → g.TurnsTo tails w t →
      t.move = .onward w' → Inv w' (t.offers.foldl (g.weigh tails) record))
    (stops : ℕ → Bool) (budget : ℕ) :
    ∀ {done : ℕ} {w : Walk} {record : Option Selection}, Inv w record →
      ∃ w' record', Inv w' record' ∧
        g.EndsAt tails w' record'
          (g.explore tails stops budget done w record) := by
  induction budget with
  | zero =>
      intro done w record h
      exact ⟨w, record, h, .budgetSpent done⟩
  | succ budget ih =>
      intro done w record h
      have ht := g.turn_cases tails w
      rw [explore]
      by_cases hstop : stops done = true
      · rw [if_pos hstop]
        exact ⟨w, record, h, .cancelled done⟩
      · rw [if_neg hstop]
        cases hmove : (g.turn tails w).move with
        | found taken =>
            simp only [hmove]
            exact ⟨w, record, h, .matched (done + 1) ht hmove⟩
        | finished =>
            simp only [hmove]
            exact ⟨w, record, h, .exhausted (done + 1) ht hmove⟩
        | onward w' =>
            simp only [hmove]
            exact ih (hstep w record _ w' h ht hmove)

/-- An invariant that holds at the start and is preserved by the turns holds
where a search of the pool ends. -/
theorem search_ends {Inv : Walk → Option Selection → Prop}
    (hstart : Inv (.start g.pool) none)
    (hstep : ∀ w record t w', Inv w record → g.TurnsTo g.pool.tails w t →
      t.move = .onward w' →
        Inv w' (t.offers.foldl (g.weigh g.pool.tails) record))
    (limits : Limits) (signal : ℕ → Bool) :
    ∃ w record, Inv w record ∧
      g.EndsAt g.pool.tails w record (g.search limits signal) :=
  explore_ends hstep (limits.stops signal) limits.iterations hstart

/-! ## Searches side by side -/

/-- Searches of one pool whose turns make the same moves take the same course,
and a relation of their records that every turn preserves holds of the records
they report. -/
theorem explore_together {g' : Goal} {tails' : Array ℤ} {Inv : Walk → Prop}
    {Rel : Option Selection → Option Selection → Prop}
    (hpool : g'.pool = g.pool)
    (hmove : ∀ w, Inv w → (g'.turn tails' w).move = (g.turn tails w).move)
    (honward : ∀ w w', Inv w → (g.turn tails w).move = .onward w' → Inv w')
    (hrecord : ∀ w record record', Inv w → Rel record record' →
      Rel ((g.turn tails w).offers.foldl (g.weigh tails) record)
        ((g'.turn tails' w).offers.foldl (g'.weigh tails') record'))
    (stops : ℕ → Bool) (budget : ℕ) :
    ∀ {done : ℕ} {w : Walk} {record record' : Option Selection}, Inv w →
      Rel record record' →
      (g.explore tails stops budget done w record).SameCourse
          (g'.explore tails' stops budget done w record') ∧
        Rel (g.explore tails stops budget done w record).record
          (g'.explore tails' stops budget done w record').record := by
  induction budget with
  | zero =>
      intro done w record record' _ hrel
      exact ⟨⟨rfl, rfl, rfl⟩, hrel⟩
  | succ budget ih =>
      intro done w record record' hw hrel
      have hsame := hmove w hw
      have hnext := hrecord w record record' hw hrel
      rw [explore, explore]
      by_cases hstop : stops done = true
      · rw [if_pos hstop, if_pos hstop]
        exact ⟨⟨rfl, rfl, rfl⟩, hrel⟩
      · rw [if_neg hstop, if_neg hstop]
        cases hturn : (g.turn tails w).move with
        | found taken =>
            rw [hturn] at hsame
            simp only [hturn, hsame, hpool]
            exact ⟨⟨rfl, rfl, rfl⟩, hnext⟩
        | finished =>
            rw [hturn] at hsame
            simp only [hturn, hsame]
            exact ⟨⟨rfl, rfl, rfl⟩, hnext⟩
        | onward w' =>
            rw [hturn] at hsame
            simp only [hturn, hsame]
            exact ih (honward w w' hw hturn) hnext

/-! ## Budgets and signals -/

/-- A search that ends before its budget is spent is the same with more
budget. -/
theorem explore_of_budget_le (stops : ℕ → Bool) {budget : ℕ} :
    ∀ {budget' done : ℕ} {w : Walk} {record : Option Selection},
      budget ≤ budget' →
      (g.explore tails stops budget done w record).ending ≠ .budgetSpent →
      g.explore tails stops budget' done w record =
        g.explore tails stops budget done w record := by
  induction budget with
  | zero =>
      intro budget' done w record _ hend
      exact absurd rfl hend
  | succ budget ih =>
      intro budget' done w record hle hend
      obtain ⟨more, rfl⟩ := Nat.exists_eq_add_of_le' hle
      have hle' : budget ≤ more + budget := Nat.le_add_left budget more
      rw [← Nat.add_assoc, explore, explore]
      rw [explore] at hend
      by_cases hstop : stops done = true
      · rw [if_pos hstop, if_pos hstop]
      · rw [if_neg hstop] at hend ⊢
        rw [if_neg hstop]
        cases hmove : (g.turn tails w).move with
        | found => simp only [hmove]
        | finished => simp only [hmove]
        | onward w' =>
            simp only [hmove] at hend ⊢
            exact ih hle' hend

theorem search_of_iterations_le {limits : Limits} {iterations : ℕ}
    {signal : ℕ → Bool} (hle : limits.iterations ≤ iterations)
    (hend : (g.search limits signal).ending ≠ .budgetSpent) :
    g.search ⟨iterations, limits.checkInterval⟩ signal =
      g.search limits signal :=
  explore_of_budget_le _ hle hend

/-- A search that no signal stops is not cancelled. -/
theorem explore_ne_cancelled {stops : ℕ → Bool}
    (hstops : ∀ done, stops done = false)
    (budget : ℕ) : ∀ {done : ℕ} {w : Walk} {record : Option Selection},
      (g.explore tails stops budget done w record).ending ≠ .cancelled := by
  induction budget with
  | zero => simp [explore]
  | succ budget ih =>
      intro done w record
      rw [explore, if_neg (by simp [hstops])]
      cases hmove : (g.turn tails w).move with
      | found => simp [hmove]
      | finished => simp [hmove]
      | onward w' =>
          simp only [hmove]
          exact ih

theorem search_ne_cancelled (g : Goal) (limits : Limits) :
    (g.search limits fun _ => false).ending ≠ .cancelled :=
  explore_ne_cancelled (congrFun limits.stops_never) limits.iterations

/-- A goal over coins worth 12, 10, 10, 5 and 4, three of which may be taken. -/
def ofFiveCoins (side : Side) (target : ℤ) (htarget : 0 < target) : Goal where
  side
  pool := {
    target
    candidates := #[⟨12, 1⟩, ⟨10, 1⟩, ⟨10, 1⟩, ⟨5, 1⟩, ⟨4, 1⟩]
    inputLimit := 3
    target_pos := htarget
    inputLimit_pos := by decide
    value_pos := by decide
    descending := by decide }
  tolerance := 0
  percent := 125

end Goal
end ExactSpend
