import ExactSpend.Proofs.Search.Reports

/-!
# The ceiling of the totals

A search stores the totals of the tails cut off at the ceiling.  As a bound on
what a branch can reach the cut is harmless, and the search goes where exact
totals would lead it.  But the worth of an offer is the difference of two
totals.  Where the first of them is cut off, an overshoot seems smaller than it
is, and when it seems to miss the target it is concealed from the record.
Nothing else is lost: a search reports what exact totals make it report, unless
that is a concealed fallback.
-/

namespace ExactSpend

namespace Pool

variable {p : Pool} {i : ℕ}

/-- The totals of the tails without a ceiling. -/
def exactTails (p : Pool) : Array ℤ :=
  p.tailsBy (· + ·)

theorem exactTails_getD (hi : i ≤ p.size) :
    p.exactTails.getD i 0 = p.tailSum i :=
  tailsBy_getD id rfl (fun total value _ => add_comm total value) hi

/-- The value of a position as far as the stored totals show it. -/
def shownValue (p : Pool) (i : ℕ) : ℤ :=
  p.tails.getD i 0 - p.tails.getD (i + 1) 0

theorem tailSum_eq_add (hi : i < p.size) :
    p.tailSum i = p.value i + p.tailSum (i + 1) := by
  have hsub := tailSum_sub (p := p) i.le_succ hi
  rw [Nat.succ_eq_add_one, Nat.add_sub_cancel_left, List.range'_one, sum_cons,
    sum_nil] at hsub
  omega

theorem shownValue_le (hi : i < p.size) : p.shownValue i ≤ p.value i := by
  have hpos := value_pos_of_lt hi
  have hnext : i + 1 ≤ p.size := hi
  rw [shownValue, tails_getD hi.le, tails_getD hnext, tailSum_eq_add hi]
  omega

theorem shownValue_eq (hi : i < p.size) (hmax : p.tailSum i ≤ signedMax) :
    p.shownValue i = p.value i := by
  have hpos := value_pos_of_lt hi
  have htail := tailSum_eq_add hi
  have hnext : i + 1 ≤ p.size := hi
  rw [shownValue, tails_getD hi.le, tails_getD hnext]
  omega

end Pool

namespace Goal

variable {g : Goal} {w : Walk} {t : Turn} {o : Offer}

/-- The search with totals of the tails that have no ceiling. -/
def exactSearch (g : Goal) (limits : Limits) (signal : ℕ → Bool) : Report :=
  g.explore g.pool.exactTails (limits.stops signal) limits.iterations 0
    (.start g.pool) none

/-- By the stored totals an overshoot seems to miss the target. -/
def Conceals (g : Goal) (positions : List ℕ) : Prop :=
  g.side = .more ∧ ∃ front i, positions = front ++ [i] ∧
    g.pool.sum front + g.pool.shownValue i < g.target

theorem conceals_append_singleton {front : List ℕ} {i : ℕ} :
    g.Conceals (front ++ [i]) ↔
      g.side = .more ∧ g.pool.sum front + g.pool.shownValue i < g.target := by
  constructor
  · rintro ⟨hside, front', i', heq, hshort⟩
    obtain ⟨rfl, hlast⟩ := List.append_inj' heq rfl
    obtain rfl : i = i' := List.singleton_inj.mp hlast
    exact ⟨hside, hshort⟩
  · exact fun h => ⟨h.1, front, i, rfl, h.2⟩

/-! ## Turns -/

theorem turn_exactTails (htarget : g.target ≤ signedMax) (hw : w.Valid g) :
    g.turn g.pool.exactTails w = g.turn g.pool.tails w := by
  have hsize := (firstFit_spec hw).2.1
  have htotal : 0 ≤ w.total := hw.total_eq ▸ g.pool.sum_nonneg w.taken
  have hlowest : g.lowest ≤ signedMax := g.lowest_le_target.trans htarget
  have hreach :
      g.lowest ≤ Signed.add w.total (g.pool.exactTails.getD (g.firstFit w) 0) ↔
      g.lowest ≤ Signed.add w.total (g.pool.tails.getD (g.firstFit w) 0) := by
    rw [Pool.exactTails_getD hsize, Pool.tails_getD hsize,
      Signed.le_add_iff hlowest, Signed.le_add_iff hlowest]
    omega
  simp only [turn_eq, hreach]

/-- A search offers overshoots by one position, and sets below the band of which
it knows the exact sum. -/
theorem TurnsTo.offer_cases (ht : g.TurnsTo g.pool.tails w t)
    (htarget : g.target ≤ signedMax) (hw : w.Valid g) (ho : o ∈ t.offers) :
    (g.side = .more ∧ ∃ i < g.pool.size, o = w.offer i (i + 1)) ∨
      (o.worth g.pool.tails = g.pool.sum o.positions ∧
        g.pool.sum o.positions < g.lowest) := by
  have hsize := (firstFit_spec hw).2.1
  have hlowest : g.lowest ≤ signedMax := g.lowest_le_target.trans htarget
  have hsound := ht.sound_offers hw o ho
  have hsum := hsound.sum_positions
  have hworth := hsound.worth_tails
  have hover : o ∈ g.overshoot w →
      g.side = .more ∧ ∃ i < g.pool.size, o = w.offer i (i + 1) := by
    intro hmem
    obtain ⟨hside, i, -, hi, heq⟩ := mem_overshoot hmem
    exact ⟨hside, i, lt_of_lt_of_le hi hsize, heq⟩
  cases ht with
  | blocked => cases ho
  | overshooting => exact Or.inl (hover ho)
  | matched => exact Or.inl (hover ho)
  | cut _ _ hfit hreach =>
      rcases List.mem_append.mp ho with ho | ho
      · exact Or.inl (hover ho)
      · obtain rfl := List.mem_singleton.mp ho
        have hreach' := total_add_tailSum_lt hw htarget hfit hreach
        have hmissed := sum_topUp_lt hw hreach'
        have htails := Pool.tailSum_anti hsound.first_le hsound.last_le
        have htotal : 0 ≤ w.total := hw.total_eq ▸ g.pool.sum_nonneg w.taken
        refine Or.inr ⟨?_, hmissed⟩
        simp only [topUp, Walk.offer] at hworth hsum htails hmissed ⊢
        rw [hworth, Signed.add]
        omega
  | descended hslots _ hfit hmiss =>
      rcases List.mem_append.mp ho with ho | ho
      · exact Or.inl (hover ho)
      · obtain rfl := List.mem_singleton.mp ho
        have hlow := (valid_take hw hslots hfit hmiss).total_lt
        have hempty :
            (g.pool.take w (g.firstFit w)).total + (0 : ℤ) ≤ signedMax := by
          rw [add_zero]
          exact hlow.le.trans hlowest
        refine Or.inr ?_
        rw [hworth, hsum]
        simp only [Walk.offer, sub_self]
        rw [Signed.add_eq_of_le hempty, add_zero]
        exact ⟨rfl, hlow⟩

/-! ## Weighing -/

theorem admits_of_more_le (hside : g.side = .more) {sum sum' : ℤ}
    (htarget : g.target ≤ sum')
    (hle : sum' ≤ sum) (hadmits : g.admits sum = true) :
    g.admits sum' = true ∧ g.distance sum' ≤ g.distance sum := by
  rw [admits_more hside] at hadmits ⊢
  refine ⟨⟨htarget, by omega⟩, ?_⟩
  unfold distance
  omega

/-- An offer that the stored totals conceal is dropped, any other is compared
with the record by all of its rank. -/
theorem TurnsTo.weigh_tails (ht : g.TurnsTo g.pool.tails w t)
    (htarget : g.target ≤ signedMax)
    (hw : w.Valid g) (ho : o ∈ t.offers) (record : Option Selection) :
    (g.Conceals o.positions → g.weigh g.pool.tails record o = record) ∧
      (¬g.Conceals o.positions → g.weigh g.pool.tails record o =
        g.challenge record (Selection.ofPositions g.pool o.positions)) := by
  rcases ht.offer_cases htarget hw ho with ⟨hside, i, hi, rfl⟩ | ⟨hworth, hlow⟩
  · have hpositions := w.positions_offer_succ i
    have hshown : (w.offer i (i + 1)).worth g.pool.tails =
        Signed.add w.total (g.pool.shownValue i) := rfl
    have hsum := sum_extension_singleton hw i
    have hconceals : g.Conceals (w.taken.reverse ++ [i]) ↔
        w.total + g.pool.shownValue i < g.target := by
      rw [conceals_append_singleton, Pool.sum_reverse, ← hw.total_eq]
      exact and_iff_right hside
    rw [hpositions, hconceals]
    constructor
    · intro hshort
      have hadmits :
          g.admits (Signed.add w.total (g.pool.shownValue i)) = false := by
        rw [Bool.eq_false_iff, ne_eq, admits_more hside,
          Signed.le_add_iff htarget]
        omega
      simp [weigh, hshown, hadmits]
    · intro hseen
      have hle := Pool.shownValue_le hi
      rw [← hpositions]
      refine weigh_eq_challenge record fun hadmits => ?_
      rw [hpositions, hsum] at hadmits ⊢
      rw [hshown]
      refine admits_of_more_le hside ?_ ?_ hadmits
      · exact (Signed.le_add_iff htarget).mpr (not_lt.mp hseen)
      · rw [Signed.add]
        omega
  · refine ⟨fun hconceals => ?_, fun _ => weigh_of_worth record hworth⟩
    have hadmits : g.admits (g.pool.sum o.positions) = false := by
      have := g.lowest_le_target
      rw [Bool.eq_false_iff, ne_eq, admits_more hconceals.1]
      omega
    simp [weigh, hworth, hadmits]

/-- With exact totals every offer is compared with the record by all of its
rank. -/
theorem TurnsTo.weigh_exactTails {tails : Array ℤ} (ht : g.TurnsTo tails w t)
    (htarget : g.target ≤ signedMax) (hw : w.Valid g) (ho : o ∈ t.offers)
    (record : Option Selection) :
    g.weigh g.pool.exactTails record o =
      g.challenge record (Selection.ofPositions g.pool o.positions) := by
  have hsound := ht.sound_offers hw o ho
  have hworth :
      o.worth g.pool.exactTails = min (g.pool.sum o.positions) signedMax := by
    rw [hsound.sum_positions, Offer.worth, Pool.exactTails_getD hsound.last_le,
      Pool.exactTails_getD (hsound.first_le.trans hsound.last_le), Signed.add]
  refine weigh_eq_challenge record fun hadmits => ?_
  rw [hworth]
  cases hside : g.side with
  | more =>
      have hreach := ((admits_more hside).mp hadmits).1
      exact admits_of_more_le hside (le_min hreach htarget)
        (min_le_left _ _) hadmits
  | less =>
      have hbelow := ((admits_less hside).mp hadmits).1
      rw [min_eq_left (hbelow.trans htarget)]
      exact ⟨hadmits, le_refl _⟩

/-! ## Records -/

/-- The record of the search beside that with exact totals: the two are the same
unless the latter is concealed, and then it ranks no worse. -/
structure Beside (g : Goal) (record record' : Option Selection) : Prop where
  shown : ∀ s, record = some s → ¬g.Conceals s.positions
  same_or : record = record' ∨
    ∃ s, record' = some s ∧ g.Conceals s.positions ∧ ∀ s', record = some s' →
      g.NoWorse s s'

theorem Beside.of_concealed {record record' : Option Selection}
    (h : g.Beside record record') {s : Selection}
    (hs : g.Conceals s.positions) :
    g.Beside record (g.challenge record' s) := by
  refine ⟨h.shown, ?_⟩
  rw [challenge]
  by_cases himproves : g.improves s record' = true
  · rw [if_pos himproves]
    refine Or.inr ⟨s, rfl, hs, fun s' hs' => ?_⟩
    rcases h.same_or with rfl | ⟨best, rfl, -, hbest⟩
    · subst hs'
      exact noWorse_of_ranksBefore (improves_some.mp himproves).2.2
    · exact (noWorse_of_ranksBefore (improves_some.mp himproves).2.2).trans
        (hbest s' hs')
  · rw [if_neg himproves]
    exact h.same_or

/-- What replaces a selection replaces any record that ranks no better than
it. -/
theorem improves_of_noWorse {best s : Selection} {record : Option Selection}
    (hbest : ∀ s', record = some s' → g.NoWorse best s')
    (h : g.improves s (some best) = true) : g.improves s record = true := by
  obtain ⟨hne, hadmits, hranks⟩ := improves_some.mp h
  cases record with
  | none => exact improves_none.mpr ⟨hne, hadmits⟩
  | some s' =>
      exact improves_some.mpr ⟨hne, hadmits,
        ranksBefore_of_noWorse hranks (hbest s' rfl)⟩

theorem Beside.of_shown {record record' : Option Selection}
    (h : g.Beside record record')
    {s : Selection} (hs : ¬g.Conceals s.positions) :
    g.Beside (g.challenge record s) (g.challenge record' s) := by
  constructor
  · intro s' hs'
    rw [challenge] at hs'
    split at hs'
    · obtain rfl := Option.some.inj hs'
      exact hs
    · exact h.shown s' hs'
  · rcases h.same_or with rfl | ⟨best, rfl, hconceals, hbest⟩
    · exact Or.inl rfl
    · by_cases himproves : g.improves s (some best) = true
      · rw [challenge, challenge, if_pos himproves,
          if_pos (improves_of_noWorse hbest himproves)]
        exact Or.inl rfl
      · rw [challenge, challenge, if_neg himproves]
        refine Or.inr ⟨best, rfl, hconceals, fun s' hs' => ?_⟩
        split at hs'
        · rename_i hnew
          obtain rfl := Option.some.inj hs'
          obtain ⟨hne, hadmits⟩ := fit_of_improves hnew
          refine Bool.eq_false_iff.mpr fun hranks => himproves ?_
          exact improves_some.mpr ⟨hne, hadmits, hranks⟩
        · exact hbest s' hs'

theorem TurnsTo.beside (ht : g.TurnsTo g.pool.tails w t)
    (htarget : g.target ≤ signedMax) (hw : w.Valid g)
    {record record' : Option Selection} (h : g.Beside record record') :
    g.Beside (t.offers.foldl (g.weigh g.pool.tails) record)
      (t.offers.foldl (g.weigh g.pool.exactTails) record') := by
  refine List.foldl_rel h fun o ho record record' h => ?_
  obtain ⟨hdropped, hcompared⟩ := ht.weigh_tails htarget hw ho record
  rw [ht.weigh_exactTails htarget hw ho record']
  by_cases hs : g.Conceals o.positions
  · rw [hdropped hs]
    exact h.of_concealed hs
  · rw [hcompared hs]
    exact h.of_shown hs

/-! ## Whole searches -/

/-- A search and the one with exact totals take the same course, and their
records stand beside each other. -/
theorem search_beside_exactSearch (htarget : g.target ≤ signedMax)
    (limits : Limits) (signal : ℕ → Bool) :
    (g.search limits signal).SameCourse (g.exactSearch limits signal) ∧
      g.Beside (g.search limits signal).record
        (g.exactSearch limits signal).record := by
  refine @explore_together g g.pool.tails g g.pool.exactTails (Walk.Valid g)
    g.Beside rfl ?_ ?_
    ?_ (limits.stops signal) limits.iterations 0 _ _ _ g.valid_start ?_
  · intro w hw
    rw [turn_exactTails htarget hw]
  · exact fun w w' hw hmove => (g.turn_cases g.pool.tails w).valid hw hmove
  · intro w record record' hw h
    rw [turn_exactTails htarget hw]
    exact (g.turn_cases g.pool.tails w).beside htarget hw h
  · exact ⟨fun _ hs => absurd hs (by simp), Or.inl rfl⟩

theorem not_conceals_of_less (hside : g.side = .less) (positions : List ℕ) :
    ¬g.Conceals positions := by
  intro h
  exact absurd (hside.symm.trans h.1) (by decide)

/-- While no total reaches the ceiling, nothing that may serve is concealed. -/
theorem Contender.not_conceals {positions : List ℕ} (h : g.Contender positions)
    (hmax : g.pool.tailSum 0 ≤ signedMax) : ¬g.Conceals positions := by
  rintro ⟨hside, front, i, rfl, hshort⟩
  have hi : i < g.pool.size := h.choice.lt_size i (by simp)
  have hreach := ((admits_more hside).mp h.admitted).1
  have htail : g.pool.tailSum i ≤ g.pool.tailSum 0 :=
    Pool.tailSum_anti i.zero_le hi.le
  rw [Pool.sum_append, Pool.sum_cons, Pool.sum_nil, add_zero,
    ← Pool.shownValue_eq hi (htail.trans hmax)] at hreach
  exact absurd hshort (not_lt.mpr hreach)

/-- A search and the one with exact totals end alike, after as many iterations
and with the same match.  Their outcomes are the same unless that with exact
totals is a fallback that the stored totals conceal.  It never is when the
search comes from below, nor while the values total no more than the ceiling,
and then the reports are the same.  In any case the record of the search with
exact totals ranks no worse. -/
theorem search_eq_exactSearch_iff (htarget : g.target ≤ signedMax)
    (limits : Limits) (signal : ℕ → Bool) :
    (g.search limits signal).SameCourse (g.exactSearch limits signal) ∧
      ((g.search limits signal).outcome =
          (g.exactSearch limits signal).outcome ↔
        ∀ s, (g.exactSearch limits signal).outcome = .bestEffort s →
          ¬g.Conceals s.positions) ∧
      (g.side = .less ∨
        Signed.total (g.pool.candidates.toList.map (·.value)) ≤ signedMax →
        g.search limits signal = g.exactSearch limits signal) ∧
      ∀ s, (g.search limits signal).record = some s →
        g.RecordBeats (g.exactSearch limits signal).record s := by
  obtain ⟨hcourse, hshown, hor⟩ :=
    search_beside_exactSearch htarget limits signal
  obtain ⟨w, record, ⟨hw, hsound⟩, hends⟩ :=
    g.explore_ends_sound g.pool.exactTails (limits.stops signal)
      limits.iterations
  have hexact := hends.recordSound hw hsound
  rw [← exactSearch] at hexact
  refine ⟨hcourse, ?_, fun hsafe => ?_, fun s hs => ?_⟩
  · rw [hcourse.outcome_eq_iff]
    constructor
    · intro heq s hs
      obtain ⟨hfound, hs⟩ := (Report.outcome_eq_bestEffort_iff _).mp hs
      apply hshown
      rwa [heq (hcourse.found_eq ▸ hfound)]
    · intro hnone hfound
      rcases hor with heq | ⟨s, hs, hconceals, -⟩
      · exact heq
      · have hfallback := (Report.outcome_eq_bestEffort_iff _).mpr
          ⟨hcourse.found_eq.trans hfound, hs⟩
        exact absurd hconceals (hnone s hfallback)
  · apply hcourse.eq_of_record
    rcases hor with heq | ⟨s, hs, hconceals, -⟩
    · exact heq
    · rcases hsafe with hside | hmax
      · exact absurd hconceals (not_conceals_of_less hside s.positions)
      · exact absurd hconceals
          ((hexact s hs).2.not_conceals (Pool.tailSum_zero ▸ hmax))
  · rcases hor with heq | ⟨best, hbest, -, hnoWorse⟩
    · exact ⟨s, heq ▸ hs, .refl s⟩
    · exact ⟨best, hbest, hnoWorse s hs⟩

/-- A goal over two coins that are together worth more than the ceiling. -/
def ofTwoHugeCoins : Goal where
  side := .more
  pool := {
    target := 5000000000000000000
    candidates := #[⟨5000000000000000001, 0⟩, ⟨4999999999999999999, 0⟩]
    inputLimit := 2
    target_pos := by decide
    inputLimit_pos := by decide
    value_pos := by decide
    descending := by decide }
  tolerance := 0
  percent := 125

/-- A search from below over these coins has the fallback of exact totals,
though the values total more than the ceiling. -/
theorem search_eq_exactSearch_of_two_huge_coins :
    let g : Goal := { ofTwoHugeCoins with side := .less, percent := 75 }
    g.target ≤ signedMax ∧
      signedMax < Signed.total (g.pool.candidates.toList.map (·.value)) ∧
      g.search ⟨100, 1⟩ (fun _ => false) =
        g.exactSearch ⟨100, 1⟩ (fun _ => false) ∧
      (g.exactSearch ⟨100, 1⟩ fun _ => false).outcome =
        .bestEffort ⟨[1], [4999999999999999999], 4999999999999999999, 0⟩ := by
  intro g
  have htarget : g.target ≤ signedMax := by decide
  have hspec := search_eq_exactSearch_iff htarget ⟨100, 1⟩ fun _ => false
  exact ⟨htarget, by decide, hspec.2.2.1 (Or.inl rfl), by decide⟩

/-- The first coin overshoots by one.  Its value is shown as the ceiling less
the second coin, and the search reports nothing. -/
theorem search_ne_exactSearch_of_two_huge_coins :
    (ofTwoHugeCoins.search ⟨100, 1⟩ fun _ => false).outcome = .noMatch ∧
      (ofTwoHugeCoins.exactSearch ⟨100, 1⟩ fun _ => false).outcome =
        .bestEffort ⟨[0], [5000000000000000001], 5000000000000000001, 0⟩ := by
  decide

end Goal
end ExactSpend
