import ExactSpend.Proofs.Search.Reports
import ExactSpend.Proofs.Search.Termination

/-!
# Searches that may be cut off

A search can be cut off at any time.  With more budget it makes the same offers
and then some more, so a search that came to its end is not changed by it, and
one that did not can only gain.  At every moment the record is the earliest of
the selections offered so far before which no other one ranks: what is dropped
for its distance alone would not have replaced the record.
-/

namespace ExactSpend

namespace Goal

variable {g : Goal} {tails : Array ℤ} {w : Walk}

/-! ## The record of some selections -/

/-- A selection that a record may hold. -/
def Eligible (g : Goal) (s : Selection) : Prop :=
  s.positions ≠ [] ∧ g.admits s.sum = true

/-- The record keeps the earliest of the eligible selections before which no
other one ranks, as long as there are any. -/
def Keeps (g : Goal) (offered : List Selection) : Option Selection → Prop
  | none => ∀ s ∈ offered, ¬g.Eligible s
  | some best => ∃ before after, offered = before ++ best :: after ∧
      g.Eligible best ∧
      (∀ s ∈ before, g.Eligible s → g.ranksBefore best s = true) ∧
      ∀ s ∈ after, g.Eligible s → g.NoWorse best s

theorem Keeps.challenge {offered : List Selection} {record : Option Selection}
    (h : g.Keeps offered record) (s : Selection) :
    g.Keeps (offered ++ [s]) (g.challenge record s) := by
  rw [Goal.challenge]
  cases record with
  | none =>
      by_cases himproves : g.improves s none = true
      · rw [if_pos himproves]
        refine ⟨offered, [], rfl, improves_none.mp himproves, ?_, by simp⟩
        exact fun s' hs' heligible => absurd heligible (h s' hs')
      · rw [if_neg himproves]
        intro s' hs'
        rcases List.mem_append.mp hs' with hs' | hs'
        · exact h s' hs'
        · rw [List.mem_singleton.mp hs']
          exact fun heligible => himproves (improves_none.mpr heligible)
  | some best =>
      obtain ⟨before, after, rfl, heligible, hbefore, hafter⟩ := h
      by_cases himproves : g.improves s (some best) = true
      · rw [if_pos himproves]
        obtain ⟨hne, hadmits, hranks⟩ := improves_some.mp himproves
        refine ⟨_, [], rfl, ⟨hne, hadmits⟩,
          fun s' hs' heligible' => ?_, by simp⟩
        refine ranksBefore_of_noWorse hranks ?_
        rcases List.mem_append.mp hs' with hs' | hs'
        · exact noWorse_of_ranksBefore (hbefore s' hs' heligible')
        · rcases List.mem_cons.mp hs' with rfl | hs'
          · exact .refl s'
          · exact hafter s' hs' heligible'
      · rw [if_neg himproves]
        refine ⟨before, after ++ [s], by simp, heligible, hbefore,
          fun s' hs' heligible' => ?_⟩
        rcases List.mem_append.mp hs' with hs' | hs'
        · exact hafter s' hs' heligible'
        · obtain rfl := List.mem_singleton.mp hs'
          refine Bool.eq_false_iff.mpr fun hranks => himproves ?_
          exact improves_some.mpr ⟨heligible'.1, heligible'.2, hranks⟩

theorem keeps_foldl_challenge (offered : List Selection) :
    g.Keeps offered (offered.foldl g.challenge none) := by
  induction offered using List.reverseRecOn with
  | nil => exact fun _ h => absurd h List.not_mem_nil
  | append_singleton offered s ih =>
      rw [List.foldl_concat]
      exact ih.challenge s

/-! ## The offers of a search -/

/-- What a search offers to its record from a walk on, in some iterations. -/
def offersMade (g : Goal) (tails : Array ℤ) (iterations : ℕ)
    (w : Walk) : List Offer :=
  (g.path tails iterations w).flatMap fun w => (g.turn tails w).offers

/-- The record of a search that nothing stops is that of its offers. -/
theorem explore_record (budget : ℕ) :
    ∀ {done : ℕ} {w : Walk} {record : Option Selection},
    (g.explore tails (fun _ => false) budget done w record).record =
      (g.offersMade tails budget w).foldl (g.weigh tails) record := by
  induction budget with
  | zero => exact rfl
  | succ budget ih =>
      intro done w record
      rw [explore, if_neg Bool.false_ne_true, offersMade]
      cases hmove : (g.turn tails w).move with
      | found taken =>
          rw [path_of_ended (by simp [hmove]), List.flatMap_singleton]
          simp only [hmove]
      | finished =>
          rw [path_of_ended (by simp [hmove]), List.flatMap_singleton]
          simp only [hmove]
      | onward w' =>
          rw [path_of_onward hmove, List.flatMap_cons, List.foldl_append]
          simp only [hmove]
          exact ih

theorem path_mono {n : ℕ} : ∀ {m : ℕ} {w : Walk}, n ≤ m →
    g.path tails n w <+: g.path tails m w := by
  induction n with
  | zero => exact fun _ => List.nil_prefix
  | succ n ih =>
      intro m w hle
      obtain ⟨m, rfl⟩ := Nat.exists_eq_add_of_le' hle
      rw [← Nat.add_assoc]
      cases hmove : (g.turn tails w).move with
      | found taken =>
          rw [path_of_ended (by simp [hmove]), path_of_ended (by simp [hmove])]
      | finished =>
          rw [path_of_ended (by simp [hmove]), path_of_ended (by simp [hmove])]
      | onward w' =>
          rw [path_of_onward hmove, path_of_onward hmove, List.prefix_cons_inj]
          exact ih (Nat.le_add_left n m)

/-- With more iterations a search makes the same offers first. -/
theorem offersMade_mono {n m : ℕ} (hle : n ≤ m) (w : Walk) :
    g.offersMade tails n w <+: g.offersMade tails m w :=
  (path_mono hle).flatMap _

theorem valid_of_mem_path (n : ℕ) : ∀ {w : Walk}, w.Valid g →
    ∀ w' ∈ g.path tails n w, w'.Valid g := by
  induction n with
  | zero => exact fun _ _ h => absurd h List.not_mem_nil
  | succ n ih =>
      intro w hw w' hw'
      rw [path] at hw'
      rcases List.mem_cons.mp hw' with rfl | hw'
      · exact hw
      · split at hw'
        · rename_i w'' hmove
          exact ih ((g.turn_cases tails w).valid hw hmove) w' hw'
        · exact absurd hw' List.not_mem_nil

theorem sound_of_mem_offersMade {n : ℕ} (hw : w.Valid g) {o : Offer}
    (ho : o ∈ g.offersMade tails n w) : o.Sound g := by
  obtain ⟨w', hw', ho⟩ := List.mem_flatMap.mp ho
  exact (g.turn_cases tails w').sound_offers
    (valid_of_mem_path n hw w' hw') o ho

/-- Offers whose worth is their sum are weighed as the record compares
selections. -/
theorem foldl_weigh_eq {offers : List Offer}
    (hworth : ∀ o ∈ offers, o.worth tails = g.pool.sum o.positions)
    (record : Option Selection) :
    offers.foldl (g.weigh tails) record =
      (offers.map fun o => Selection.ofPositions g.pool o.positions).foldl
        g.challenge
        record := by
  rw [List.foldl_map]
  exact List.foldl_ext _ _ record fun record o ho =>
    weigh_of_worth record (hworth o ho)

/-! ## Whole searches -/

/-- While the values total no more than the ceiling and nothing stops the search
but its budget, more budget does not change a search that came to its end.  A
record, wherever the search was cut off, is improved on or kept: with more
budget there is a match or a fallback that ranks no worse.  The record is that
of the offers made, and more budget only adds to these.  After each of them the
record is the earliest eligible selection offered so far before which no other
one ranks, and every offer is compared with it by all of its rank. -/
theorem search_anytime
    (hsum : Signed.total (g.pool.candidates.toList.map (·.value)) ≤ signedMax)
    {limits limits' : Limits} (hle : limits.iterations ≤ limits'.iterations) :
    ((g.search limits fun _ => false).ending ≠ .budgetSpent →
        (g.search limits' fun _ => false) = g.search limits fun _ => false) ∧
      (∀ s, (g.search limits fun _ => false).record = some s →
        (g.search limits' fun _ => false).outcome.isFound = true ∨
          ∃ s', (g.search limits' fun _ => false).outcome = .bestEffort s' ∧
            g.NoWorse s' s) ∧
      (g.search limits fun _ => false).record =
        (g.offersMade g.pool.tails limits.iterations (.start g.pool)).foldl
          (g.weigh g.pool.tails) none ∧
      g.offersMade g.pool.tails limits.iterations (.start g.pool) <+:
        g.offersMade g.pool.tails limits'.iterations (.start g.pool) ∧
      (∀ offered,
        offered <+:
          g.offersMade g.pool.tails limits'.iterations (.start g.pool) →
        g.Keeps (offered.map fun o => Selection.ofPositions g.pool o.positions)
          (offered.foldl (g.weigh g.pool.tails) none)) ∧
      ∀ o ∈ g.offersMade g.pool.tails limits'.iterations (.start g.pool),
        ∀ record, g.weigh g.pool.tails record o =
          if g.improves (Selection.ofPositions g.pool o.positions) record then
            some (Selection.ofPositions g.pool o.positions)
          else record := by
  rw [← Pool.tailSum_zero] at hsum
  have hrecord : ∀ limits : Limits, (g.search limits fun _ => false).record =
      (g.offersMade g.pool.tails limits.iterations (.start g.pool)).foldl
        (g.weigh g.pool.tails) none := by
    intro limits
    rw [search, limits.stops_never]
    exact explore_record limits.iterations
  have hmore := @offersMade_mono g g.pool.tails _ _ hle (.start g.pool)
  have hworth :
      ∀ o ∈ g.offersMade g.pool.tails limits'.iterations (.start g.pool),
      o.worth g.pool.tails = g.pool.sum o.positions :=
    fun o ho => (sound_of_mem_offersMade g.valid_start ho).worth_eq hsum
  refine ⟨?_, ?_, hrecord limits, hmore, ?_, ?_⟩
  · intro hend
    rw [search, limits.stops_never] at hend
    rw [search, search, limits.stops_never, limits'.stops_never]
    exact explore_of_budget_le _ hle hend
  · intro s hs
    obtain ⟨further, hoffers⟩ := hmore
    have hbeats : g.RecordBeats (g.search limits' fun _ => false).record s := by
      rw [hrecord limits', ← hoffers, List.foldl_append, ← hrecord limits]
      exact RecordBeats.foldl_weigh further ⟨s, hs, .refl s⟩
    obtain ⟨best, hbest, hnoWorse⟩ := hbeats
    rcases Report.outcome_of_record _ hbest with hfound | hfallback
    · exact Or.inl hfound
    · exact Or.inr ⟨best, hfallback, hnoWorse⟩
  · intro offered hoffered
    rw [foldl_weigh_eq fun o ho => hworth o (hoffered.subset ho)]
    exact keeps_foldl_challenge _
  · exact fun o ho record => weigh_of_worth record (hworth o ho)

/-- After two iterations the search has recorded an overshoot, and with more
budget it reports a match or a fallback that ranks no worse. -/
theorem search_anytime_of_five :
    Signed.total
        ((ofFiveCoins .more 18 (by decide)).pool.candidates.toList.map
          (·.value)) ≤ signedMax ∧
      (⟨2, 1⟩ : Limits).iterations ≤ (⟨100, 1⟩ : Limits).iterations ∧
      ((ofFiveCoins .more 18 (by decide)).search ⟨2, 1⟩ fun _ => false).ending =
        .budgetSpent ∧
      (((ofFiveCoins .more 18 (by decide)).search ⟨100, 1⟩
          fun _ => false).outcome.isFound = true ∨
        ∃ s,
          ((ofFiveCoins .more 18 (by decide)).search ⟨100, 1⟩
            fun _ => false).outcome = .bestEffort s ∧
          (ofFiveCoins .more 18 (by decide)).NoWorse s
            ⟨[0, 2], [12, 10], 22, 2⟩) := by
  have hsum : Signed.total
      ((ofFiveCoins .more 18 (by decide)).pool.candidates.toList.map
        (·.value)) ≤
        signedMax := by decide
  have hle : (⟨2, 1⟩ : Limits).iterations ≤ (⟨100, 1⟩ : Limits).iterations := by
    decide
  have hend :
      ((ofFiveCoins .more 18 (by decide)).search ⟨2, 1⟩ fun _ => false).ending =
      .budgetSpent := by decide
  have hrecord :
      ((ofFiveCoins .more 18 (by decide)).search ⟨2, 1⟩ fun _ => false).record =
      some ⟨[0, 2], [12, 10], 22, 2⟩ := by decide
  exact ⟨hsum, hle, hend, (search_anytime hsum hle).2.1 _ hrecord⟩

end Goal
end ExactSpend
