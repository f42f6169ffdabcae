import ExactSpend.Proofs.Search.Fallback
import ExactSpend.Proofs.Search.FirstMatch

/-!
# What a search reports

At whatever point a search stops, the selections it reports are made of distinct
positions of the pool, no more than the input limit allows, and what they say
of these positions is true.  A match lies in the band.  The record lies outside
of it on the goal's own side: no turn offers a set of positions in the band,
since the band is what ends a search.
-/

namespace ExactSpend

/-- A selection that says of some positions of a pool what is true of them. -/
structure Selection.WellFormed (p : Pool) (s : Selection) : Prop where
  increasing : s.positions.Pairwise (· < ·)
  lt_size : ∀ i ∈ s.positions, i < p.size
  size_pos : 1 ≤ s.size
  size_le : s.size ≤ p.inputLimit
  values_eq : s.values = s.positions.map p.value
  sum_eq : s.sum = Signed.total s.values
  cost_eq : s.cost = Signed.total (s.positions.map p.cost)

theorem Pool.IsChoice.wellFormed {p : Pool} {positions : List ℕ}
    (h : p.IsChoice positions) (hne : positions ≠ []) :
    (Selection.ofPositions p positions).WellFormed p where
  increasing := h.increasing
  lt_size := h.lt_size
  size_pos := List.length_pos_of_ne_nil hne
  size_le := h.length_le
  values_eq := rfl
  sum_eq := rfl
  cost_eq := rfl

namespace Report

theorem outcome_eq_found_iff (r : Report) {s : Selection} :
    r.outcome = .found s ↔ r.found = some s := by
  unfold outcome
  split <;> simp_all

theorem record_of_bestEffort (r : Report) {s : Selection}
    (h : r.outcome = .bestEffort s) :
    r.record = some s := by
  unfold outcome at h
  split at h <;> simp_all

theorem outcome_eq_bestEffort_iff (r : Report) {s : Selection} :
    r.outcome = .bestEffort s ↔ r.found = none ∧ r.record = some s := by
  unfold outcome
  split <;> simp_all

theorem SameCourse.outcome_eq_iff {r r' : Report} (h : r.SameCourse r') :
    r.outcome = r'.outcome ↔ (r.found = none → r.record = r'.record) := by
  unfold outcome
  rw [h.found_eq]
  cases r.found <;> cases r.record <;> cases r'.record <;> simp

theorem outcome_of_record (r : Report) {s : Selection} (h : r.record = some s) :
    r.outcome.isFound = true ∨ r.outcome = .bestEffort s := by
  unfold outcome
  rw [h]
  cases r.found with
  | some s' => exact Or.inl rfl
  | none => exact Or.inr rfl

theorem isFound_outcome (r : Report) : r.outcome.isFound = r.found.isSome := by
  unfold outcome
  split <;> simp_all [Outcome.isFound]

end Report

namespace Goal

variable {g : Goal} {w : Walk}

/-! ## Offers miss the band -/

theorem isMatch_of_highest_lt {sum : ℤ} (h : g.highest < sum) :
    g.isMatch sum = false :=
  Bool.eq_false_iff.mpr fun hmatch =>
    absurd (isMatch_iff.mp hmatch).2 (not_le.mpr h)

theorem isMatch_of_lt_lowest {sum : ℤ} (h : sum < g.lowest) :
    g.isMatch sum = false :=
  Bool.eq_false_iff.mpr fun hmatch =>
    absurd (isMatch_iff.mp hmatch).1 (not_le.mpr h)

theorem highest_lt_of_mem_overshoot (hw : w.Valid g) {o : Offer}
    (ho : o ∈ g.overshoot w) :
    g.highest < g.pool.sum o.positions := by
  obtain ⟨-, i, hnext, hjump, rfl⟩ := mem_overshoot ho
  rw [w.positions_offer_succ]
  exact highest_lt_sum hw [] hnext hjump

theorem TurnsTo.offers_miss {t : Turn} (ht : g.TurnsTo g.pool.tails w t)
    (htarget : g.target ≤ signedMax) (hw : w.Valid g) :
    ∀ o ∈ t.offers, g.isMatch (g.pool.sum o.positions) = false := by
  have hover : ∀ o ∈ g.overshoot w,
      g.isMatch (g.pool.sum o.positions) = false :=
    fun o ho => isMatch_of_highest_lt (highest_lt_of_mem_overshoot hw ho)
  cases ht with
  | blocked => simp
  | overshooting => exact hover
  | matched => exact hover
  | cut _ _ hfit hreach =>
      intro o ho
      rcases List.mem_append.mp ho with ho | ho
      · exact hover o ho
      · have hreach' := total_add_tailSum_lt hw htarget hfit hreach
        obtain rfl := List.mem_singleton.mp ho
        exact isMatch_of_lt_lowest (sum_topUp_lt hw hreach')
  | descended _ _ _ hmiss =>
      intro o ho
      rcases List.mem_append.mp ho with ho | ho
      · exact hover o ho
      · obtain rfl := List.mem_singleton.mp ho
        rw [g.pool.positions_offer_take, sum_extension_singleton hw]
        exact hmiss

/-- The record lies outside the band. -/
def RecordMisses (g : Goal) (record : Option Selection) : Prop :=
  ∀ s, record = some s → g.isMatch s.sum = false

theorem RecordMisses.foldl_weigh {tails : Array ℤ} {offers : List Offer}
    {record : Option Selection} (h : g.RecordMisses record)
    (hoffers : ∀ o ∈ offers, g.isMatch (g.pool.sum o.positions) = false) :
    g.RecordMisses (offers.foldl (g.weigh tails) record) := by
  intro s hs
  rcases g.foldl_weigh_cases tails offers record with heq | ⟨o, ho, -, -, heq⟩
  · exact h s (heq ▸ hs)
  · obtain rfl := Option.some.inj (heq.symm.trans hs)
    exact hoffers o ho

/-- A fallback that misses the band lies beyond it, as seen from the other side
of the target. -/
theorem beyond_of_admits (htarget : g.target ≤ signedMax) {sum : ℤ}
    (hadmits : g.admits sum = true) (hmiss : g.isMatch sum = false) :
    (g.side = .more → g.highest < sum) ∧ (g.side = .less → sum < g.lowest) := by
  have hout : ¬(g.lowest ≤ sum ∧ sum ≤ g.highest) :=
    fun h => Bool.eq_false_iff.mp hmiss (isMatch_iff.mpr h)
  constructor
  · intro hside
    have hlow : g.lowest ≤ sum :=
      g.lowest_le_target.trans ((admits_more hside).mp hadmits).1
    exact not_le.mp fun hle => hout ⟨hlow, hle⟩
  · intro hside
    have hhigh : sum ≤ g.highest :=
      ((admits_less hside).mp hadmits).1.trans (target_le_highest htarget)
    exact not_le.mp fun hle => hout ⟨hle, hhigh⟩

/-! ## Whole searches -/

/-- What a search preserves besides the validity of its walk: the record is a
contender outside the band. -/
structure RecordedAt (g : Goal) (w : Walk)
    (record : Option Selection) : Prop where
  valid : w.Valid g
  sound : g.RecordSound record
  misses : g.RecordMisses record

theorem recordedAt_start (g : Goal) : g.RecordedAt (.start g.pool) none where
  valid := g.valid_start
  sound := fun _ h => absurd h (by simp)
  misses := fun _ h => absurd h (by simp)

theorem TurnsTo.recordedAt {t : Turn} (ht : g.TurnsTo g.pool.tails w t)
    (htarget : g.target ≤ signedMax) {record : Option Selection}
    (h : g.RecordedAt w record) {w' : Walk} (hmove : t.move = .onward w') :
    g.RecordedAt w' (t.offers.foldl (g.weigh g.pool.tails) record) where
  valid := ht.valid h.valid hmove
  sound := h.sound.foldl_weigh (ht.sound_offers h.valid)
  misses := h.misses.foldl_weigh (ht.offers_miss htarget h.valid)

theorem EndsAt.recordMisses {record : Option Selection} {r : Report}
    (hends : g.EndsAt g.pool.tails w record r) (htarget : g.target ≤ signedMax)
    (hw : w.Valid g) (hmisses : g.RecordMisses record) :
    g.RecordMisses r.record := by
  cases hends with
  | budgetSpent => exact hmisses
  | cancelled => exact hmisses
  | matched _ ht => exact hmisses.foldl_weigh (ht.offers_miss htarget hw)
  | exhausted _ ht => exact hmisses.foldl_weigh (ht.offers_miss htarget hw)

theorem search_record (htarget : g.target ≤ signedMax) (limits : Limits)
    (signal : ℕ → Bool) :
    g.RecordSound (g.search limits signal).record ∧
      g.RecordMisses (g.search limits signal).record := by
  obtain ⟨w, record, h, hends⟩ := search_ends g.recordedAt_start
    (fun _ _ _ _ h ht hmove => ht.recordedAt htarget h hmove) limits signal
  exact ⟨hends.recordSound h.valid h.sound,
    hends.recordMisses htarget h.valid h.misses⟩

/-- Whatever stops a search, its selections are well formed.  It finds one
exactly when it ends with a match, and then the sum lies in the band.  The
record may serve as a fallback and lies beyond the band: above its upper edge
when the search comes from above, below its lower edge when it comes from
below. -/
theorem search_reports_wellFormed (htarget : g.target ≤ signedMax)
    (limits : Limits) (signal : ℕ → Bool) :
    (∀ s, (g.search limits signal).outcome = .found s ∨
        (g.search limits signal).outcome = .bestEffort s ∨
        (g.search limits signal).record = some s → s.WellFormed g.pool) ∧
      ((g.search limits signal).outcome.isFound = true ↔
        (g.search limits signal).ending = .matched) ∧
      (∀ s, (g.search limits signal).outcome = .found s →
        g.lowest ≤ s.sum ∧ s.sum ≤ g.highest) ∧
      ∀ s, (g.search limits signal).outcome = .bestEffort s ∨
          (g.search limits signal).record = some s →
        g.admits s.sum = true ∧ (g.side = .more → g.highest < s.sum) ∧
          (g.side = .less → s.sum < g.lowest) := by
  obtain ⟨hsound, hmisses⟩ := search_record htarget limits signal
  have hmatched := g.search_matched_iff limits signal
  have hfirst : ∀ s, (g.search limits signal).found = some s →
      s = Selection.ofPositions g.pool s.positions ∧
        g.IsFirstMatch s.positions :=
    fun _ => isFirstMatch_of_search_found htarget
  generalize g.search limits signal = r at hsound hmisses hmatched hfirst ⊢
  have hfound : ∀ s, r.outcome = .found s →
      s = Selection.ofPositions g.pool s.positions ∧ g.Matches s.positions := by
    intro s hs
    obtain ⟨heq, hmatch, -⟩ := hfirst s (r.outcome_eq_found_iff.mp hs)
    exact ⟨heq, hmatch⟩
  have hrecord : ∀ s, r.outcome = .bestEffort s ∨ r.record = some s →
      r.record = some s := by
    rintro s (hs | hs)
    · exact r.record_of_bestEffort hs
    · exact hs
  refine ⟨?_, ?_, ?_, ?_⟩
  · rintro s (hs | hs)
    · obtain ⟨heq, hmatch⟩ := hfound s hs
      exact heq ▸ hmatch.choice.wellFormed hmatch.nonempty
    · obtain ⟨heq, hcontender⟩ := hsound s (hrecord s hs)
      exact heq ▸ hcontender.choice.wellFormed hcontender.nonempty
  · rw [hmatched, r.isFound_outcome]
  · intro s hs
    obtain ⟨heq, hmatch⟩ := hfound s hs
    rw [heq]
    exact isMatch_iff.mp hmatch.inBand
  · intro s hs
    obtain ⟨heq, hcontender⟩ := hsound s (hrecord s hs)
    have hadmits : g.admits s.sum = true := by
      rw [heq]
      exact hcontender.admitted
    exact ⟨hadmits, beyond_of_admits htarget hadmits (hmisses s (hrecord s hs))⟩

/-- Cut off after two iterations, the search has recorded an overshoot. -/
theorem search_reports_of_two_iterations :
    (ofFiveCoins .more 18 (by decide)).target ≤ signedMax ∧
      ((ofFiveCoins .more 18 (by decide)).search ⟨2, 1⟩ fun _ => false).ending =
        .budgetSpent ∧
      (⟨[0, 2], [12, 10], 22, 2⟩ : Selection).WellFormed
        (ofFiveCoins .more 18 (by decide)).pool ∧
      (ofFiveCoins .more 18 (by decide)).highest < 22 := by
  have htarget : (ofFiveCoins .more 18 (by decide)).target ≤ signedMax := by
    decide
  have hend :
      ((ofFiveCoins .more 18 (by decide)).search ⟨2, 1⟩ fun _ => false).ending =
      .budgetSpent := by decide
  have hrecord :
      ((ofFiveCoins .more 18 (by decide)).search ⟨2, 1⟩ fun _ => false).record =
      some ⟨[0, 2], [12, 10], 22, 2⟩ := by decide
  obtain ⟨hformed, -, -, hbeyond⟩ :=
    search_reports_wellFormed htarget ⟨2, 1⟩ fun _ => false
  exact ⟨htarget, hend, hformed _ (Or.inr (Or.inr hrecord)),
    (hbeyond _ (Or.inr hrecord)).2.1 rfl⟩

end Goal
end ExactSpend
