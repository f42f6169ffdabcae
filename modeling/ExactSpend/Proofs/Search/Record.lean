import ExactSpend.Proofs.Search.Run

/-!
# The record of the best fallback

The record only changes to a selection that ranks before it, and after an offer
it never ranks behind what was offered.  Both hold only because an offer's sum,
which is read off the totals of the tails, is the sum of its positions.
-/

namespace ExactSpend

theorem Selection.size_ofPositions (p : Pool) (positions : List ℕ) :
    (Selection.ofPositions p positions).size = positions.length := rfl

theorem Selection.sum_ofPositions (p : Pool) (positions : List ℕ) :
    (Selection.ofPositions p positions).sum = p.sum positions := rfl

namespace Goal

variable {g : Goal} {tails : Array ℤ} {w : Walk}

/-! ## Ranks -/

/-- The selection `a` does not rank behind `b`. -/
def NoWorse (g : Goal) (a b : Selection) : Prop :=
  g.ranksBefore b a = false

theorem noWorse_iff {a b : Selection} :
    g.NoWorse a b ↔
      g.distance a.sum < g.distance b.sum ∨
        g.distance a.sum = g.distance b.sum ∧
          (a.size < b.size ∨ a.size = b.size ∧ a.cost ≤ b.cost) := by
  rw [NoWorse, ranksBefore, decide_eq_false_iff_not]
  omega

theorem NoWorse.refl (a : Selection) : g.NoWorse a a :=
  noWorse_iff.mpr (by omega)

theorem NoWorse.trans {a b c : Selection} (hab : g.NoWorse a b)
    (hbc : g.NoWorse b c) :
    g.NoWorse a c := by
  rw [noWorse_iff] at hab hbc ⊢
  omega

theorem noWorse_of_ranksBefore {a b : Selection}
    (h : g.ranksBefore a b = true) :
    g.NoWorse a b := by
  rw [ranksBefore, decide_eq_true_iff] at h
  rw [noWorse_iff]
  omega

theorem ranksBefore_of_noWorse {a b c : Selection}
    (hab : g.ranksBefore a b = true)
    (hbc : g.NoWorse b c) : g.ranksBefore a c = true := by
  rw [noWorse_iff] at hbc
  rw [ranksBefore, decide_eq_true_iff] at hab ⊢
  omega

/-- The record ranks no worse than `s`. -/
def RecordBeats (g : Goal) (record : Option Selection) (s : Selection) : Prop :=
  ∃ best, record = some best ∧ g.NoWorse best s

/-! ## Weighing offers -/

theorem improves_none {s : Selection} :
    g.improves s none = true ↔ s.positions ≠ [] ∧ g.admits s.sum = true := by
  simp [improves, Selection.isEmpty]

theorem improves_some {s best : Selection} :
    g.improves s (some best) = true ↔
      s.positions ≠ [] ∧ g.admits s.sum = true ∧
        g.ranksBefore s best = true := by
  simp [improves, Selection.isEmpty, and_assoc]

theorem fit_of_improves {s : Selection} {record : Option Selection}
    (h : g.improves s record = true) : s.positions ≠ [] ∧
    g.admits s.sum = true := by
  cases record with
  | none => exact improves_none.mp h
  | some best => exact ⟨(improves_some.mp h).1, (improves_some.mp h).2.1⟩

/-- Weighing an offer keeps the record or replaces it by the offer. -/
theorem weigh_cases (g : Goal) (tails : Array ℤ)
    (record : Option Selection) (o : Offer) :
    g.weigh tails record o = record ∨
      g.weigh tails record o = some (Selection.ofPositions g.pool o.positions) ∧
        g.improves (Selection.ofPositions g.pool o.positions) record =
          true := by
  unfold weigh
  simp only
  split
  · exact Or.inl rfl
  · split
    · exact Or.inl rfl
    · split
      · exact Or.inr ⟨rfl, by assumption⟩
      · exact Or.inl rfl

/-- After some offers the record is what it was, or one of them that may serve
as a fallback. -/
theorem foldl_weigh_cases (g : Goal) (tails : Array ℤ) (offers : List Offer) :
    ∀ record : Option Selection, offers.foldl (g.weigh tails) record = record ∨
      ∃ o ∈ offers, o.positions ≠ [] ∧
        g.admits (g.pool.sum o.positions) = true ∧
        offers.foldl (g.weigh tails) record =
          some (Selection.ofPositions g.pool o.positions) := by
  induction offers with
  | nil => exact fun _ => Or.inl rfl
  | cons o offers ih =>
      intro record
      rcases ih (g.weigh tails record o) with
          hrest | ⟨o', ho', hne, hadmits, hrest⟩
      · rw [List.foldl_cons, hrest]
        rcases g.weigh_cases tails record o with heq | ⟨heq, himproves⟩
        · exact Or.inl heq
        · obtain ⟨hne, hadmits⟩ := fit_of_improves himproves
          exact Or.inr ⟨o, List.mem_cons_self, hne, hadmits, heq⟩
      · exact Or.inr ⟨o', List.mem_cons_of_mem o ho', hne, hadmits, hrest⟩

theorem RecordBeats.weigh {record : Option Selection} {s : Selection}
    (h : g.RecordBeats record s) (o : Offer) :
    g.RecordBeats (g.weigh tails record o) s := by
  obtain ⟨best, rfl, hbest⟩ := h
  rcases g.weigh_cases tails (some best) o with heq | ⟨heq, himproves⟩
  · exact ⟨best, heq, hbest⟩
  · have hranks := (improves_some.mp himproves).2.2
    exact ⟨_, heq, (noWorse_of_ranksBefore hranks).trans hbest⟩

/-- The record after a selection is compared with it. -/
def challenge (g : Goal) (record : Option Selection) (s : Selection) :
    Option Selection :=
  if g.improves s record then some s else record

theorem recordBeats_challenge (record : Option Selection) {s : Selection}
    (hne : s.positions ≠ []) (hadmits : g.admits s.sum = true) :
    g.RecordBeats (g.challenge record s) s := by
  rw [challenge]
  by_cases himproves : g.improves s record = true
  · rw [if_pos himproves]
    exact ⟨s, rfl, .refl s⟩
  · rw [if_neg himproves]
    cases record with
    | none => exact absurd (improves_none.mpr ⟨hne, hadmits⟩) himproves
    | some best =>
        refine ⟨best, rfl, Bool.eq_false_iff.mpr fun hranks => himproves ?_⟩
        exact improves_some.mpr ⟨hne, hadmits, hranks⟩

/-- Weighing compares an offer with the record by all of its rank, as long as
its worth hides neither that it may serve as a fallback nor how near it is. -/
theorem weigh_eq_challenge (record : Option Selection) {o : Offer}
    (hworth : g.admits (g.pool.sum o.positions) = true →
      g.admits (o.worth tails) = true ∧
        g.distance (o.worth tails) ≤ g.distance (g.pool.sum o.positions)) :
    g.weigh tails record o =
      g.challenge record (Selection.ofPositions g.pool o.positions) := by
  by_cases hadmits : g.admits (g.pool.sum o.positions) = true
  · obtain ⟨hadmits', hnear⟩ := hworth hadmits
    simp only [weigh, challenge, hadmits', Bool.not_true,
      Bool.false_eq_true, if_false]
    by_cases hfar :
        (record.any fun best =>
          g.distance best.sum < g.distance (o.worth tails)) = true
    · rw [if_pos hfar, if_neg]
      intro himproves
      -- An offer this far from the target does not rank before the record.
      cases record with
      | none => simp at hfar
      | some best =>
          have hlt : g.distance best.sum < g.distance (o.worth tails) := by
            simpa using hfar
          have hranks := noWorse_iff.mp
            (noWorse_of_ranksBefore (improves_some.mp himproves).2.2)
          rw [Selection.sum_ofPositions] at hranks
          omega
    · rw [if_neg hfar]
  · have hkeep :
        ¬g.improves (Selection.ofPositions g.pool o.positions) record = true :=
      fun himproves => hadmits (fit_of_improves himproves).2
    rw [challenge, if_neg hkeep]
    rcases g.weigh_cases tails record o with heq | ⟨-, himproves⟩
    · exact heq
    · exact absurd himproves hkeep

/-- An offer whose worth is its sum is compared with the record by all of its
rank. -/
theorem weigh_of_worth (record : Option Selection) {o : Offer}
    (hworth : o.worth tails = g.pool.sum o.positions) :
    g.weigh tails record o =
      g.challenge record (Selection.ofPositions g.pool o.positions) := by
  refine weigh_eq_challenge record fun hadmits => ?_
  rw [hworth]
  exact ⟨hadmits, le_refl _⟩

theorem RecordBeats.foldl_weigh {s : Selection} (offers : List Offer) :
    ∀ {record : Option Selection}, g.RecordBeats record s →
      g.RecordBeats (offers.foldl (g.weigh tails) record) s := by
  induction offers with
  | nil => exact fun h => h
  | cons o offers ih => exact fun h => ih (h.weigh o)

theorem recordBeats_foldl_weigh {o : Offer}
    (hworth : o.worth tails = g.pool.sum o.positions) (hne : o.positions ≠ [])
    (hadmits : g.admits (g.pool.sum o.positions) = true)
    {offers : List Offer} (ho : o ∈ offers) (record : Option Selection) :
    g.RecordBeats (offers.foldl (g.weigh tails) record)
      (Selection.ofPositions g.pool o.positions) := by
  obtain ⟨before, after, rfl⟩ := List.append_of_mem ho
  rw [List.foldl_append, List.foldl_cons, weigh_of_worth _ hworth]
  exact (recordBeats_challenge _ hne hadmits).foldl_weigh after

end Goal

/-! ## What is offered -/

/-- What holds of every offer of a search for `g`. -/
structure Offer.Sound (g : Goal) (o : Offer) : Prop where
  choice : g.pool.IsChoice o.positions
  total_eq : o.total = g.pool.sum o.taken
  first_le : o.first ≤ o.last
  last_le : o.last ≤ g.pool.size

theorem Pool.positions_offer_take (p : Pool) (w : Walk) (i : ℕ) :
    ((p.take w i).offer (i + 1) (i + 1)).positions =
      w.taken.reverse ++ [i] := by
  simp [Offer.positions, Walk.offer, take]

theorem Walk.positions_offer_pred (w : Walk) {i : ℕ} (hi : 0 < i) :
    (w.offer (i - 1) i).positions = w.taken.reverse ++ [i - 1] := by
  have hone : i - (i - 1) = 1 := by omega
  simp [Offer.positions, Walk.offer, hone]

theorem Walk.positions_offer_succ (w : Walk) (i : ℕ) :
    (w.offer i (i + 1)).positions = w.taken.reverse ++ [i] :=
  w.positions_offer_pred i.succ_pos

/-- A walk may offer a run of open positions that is not too long. -/
theorem Walk.Valid.sound_offer {g : Goal} {w : Walk} (hw : w.Valid g)
    {first last : ℕ}
    (hnext : w.next ≤ first) (hle : first ≤ last) (hlast : last ≤ g.pool.size)
    (hslots : last - first ≤ w.slots) : (w.offer first last).Sound g := by
  have hchoice :
      g.pool.IsChoice (w.taken.reverse ++ List.range' first (last - first)) :=
    Goal.isChoice_append_range' hw hnext (by omega) hslots
  exact ⟨hchoice, hw.total_eq, hle, hlast⟩

theorem Pool.tailSum_sub {p : Pool} {first last : ℕ} (hle : first ≤ last)
    (hlast : last ≤ p.size) :
    p.tailSum first - p.tailSum last =
      p.sum (List.range' first (last - first)) := by
  have hsplit : List.range' first (p.size - first) =
      List.range' first (last - first) ++ List.range' last (p.size - last) := by
    have hstart : last = first + (last - first) := by omega
    have hlength : p.size - first = last - first + (p.size - last) := by omega
    rw [hlength, ← List.range'_append_1, ← hstart]
  rw [tailSum, tailSum, hsplit, sum_append]
  omega

theorem Pool.tailSum_anti {p : Pool} {first last : ℕ} (hle : first ≤ last)
    (hlast : last ≤ p.size) : p.tailSum last ≤ p.tailSum first := by
  have hrange := tailSum_sub hle hlast
  have := p.sum_nonneg (List.range' first (last - first))
  omega

namespace Offer.Sound

variable {g : Goal} {o : Offer}

theorem sum_positions (ho : o.Sound g) :
    g.pool.sum o.positions =
      o.total + (g.pool.tailSum o.first - g.pool.tailSum o.last) := by
  rw [positions, Pool.sum_append, Pool.sum_reverse, ho.total_eq,
    Pool.tailSum_sub ho.first_le ho.last_le]

theorem worth_tails (ho : o.Sound g) :
    o.worth g.pool.tails =
      Signed.add o.total
        (min (g.pool.tailSum o.first) signedMax -
          min (g.pool.tailSum o.last) signedMax) := by
  rw [worth, Pool.tails_getD (ho.first_le.trans ho.last_le),
    Pool.tails_getD ho.last_le]

/-- While no total reaches the ceiling, the worth of an offer is exact. -/
theorem worth_eq (ho : o.Sound g) (hsum : g.pool.tailSum 0 ≤ signedMax) :
    o.worth g.pool.tails = g.pool.sum o.positions := by
  have htail : g.pool.tailSum o.first ≤ g.pool.tailSum 0 :=
    Pool.tailSum_anti o.first.zero_le (ho.first_le.trans ho.last_le)
  have hle : g.pool.sum o.positions ≤ signedMax :=
    (Pool.sum_le_tailSum ho.choice.increasing (fun i _ => Nat.zero_le i)
      ho.choice.lt_size).trans hsum
  have hlast := Pool.tailSum_anti ho.first_le ho.last_le
  rw [ho.sum_positions] at hle ⊢
  rw [ho.worth_tails, min_eq_left (htail.trans hsum),
    min_eq_left (hlast.trans (htail.trans hsum)), Signed.add_eq_of_le hle]

end Offer.Sound

namespace Goal

variable {g : Goal} {tails : Array ℤ} {w : Walk}

theorem TurnsTo.sound_offers {t : Turn} (ht : g.TurnsTo tails w t)
    (hw : w.Valid g) :
    ∀ o ∈ t.offers, o.Sound g := by
  obtain ⟨hnext, hsize, -, -⟩ := firstFit_spec hw
  have hover : 0 < w.slots → ∀ o ∈ g.overshoot w, o.Sound g := by
    intro hslots o ho
    obtain ⟨-, i, hi, hjump, rfl⟩ := mem_overshoot ho
    exact hw.sound_offer hi i.le_succ (by omega) (by omega)
  cases ht with
  | blocked => simp
  | overshooting hslots => exact hover hslots
  | cut hslots =>
      intro o ho
      rcases List.mem_append.mp ho with ho | ho
      · exact hover hslots o ho
      · obtain rfl := List.mem_singleton.mp ho
        exact hw.sound_offer hnext (by omega) (by omega) (by omega)
  | matched hslots => exact hover hslots
  | descended hslots _ hfit hmiss =>
      intro o ho
      rcases List.mem_append.mp ho with ho | ho
      · exact hover hslots o ho
      · obtain rfl := List.mem_singleton.mp ho
        exact (valid_take hw hslots hfit hmiss).sound_offer (le_refl _)
          (le_refl _) hfit (by omega)

/-! ## What is recorded -/

/-- A set of positions that may serve as a fallback. -/
structure Contender (g : Goal) (positions : List ℕ) : Prop where
  choice : g.pool.IsChoice positions
  nonempty : positions ≠ []
  admitted : g.admits (g.pool.sum positions) = true

/-- The record holds nothing but a contender. -/
def RecordSound (g : Goal) (record : Option Selection) : Prop :=
  ∀ s, record = some s → s = Selection.ofPositions g.pool s.positions ∧
    g.Contender s.positions

theorem RecordSound.foldl_weigh {offers : List Offer}
    {record : Option Selection}
    (h : g.RecordSound record) (ho : ∀ o ∈ offers, o.Sound g) :
    g.RecordSound (offers.foldl (g.weigh tails) record) := by
  intro s hs
  rcases g.foldl_weigh_cases tails offers record with
      heq | ⟨o, hmem, hne, hadmits, heq⟩
  · exact h s (heq ▸ hs)
  · obtain rfl := Option.some.inj (heq.symm.trans hs)
    exact ⟨rfl, (ho o hmem).choice, hne, hadmits⟩

/-! ## What is reported -/

theorem EndsAt.recordSound {w : Walk} {record : Option Selection} {r : Report}
    (hends : g.EndsAt tails w record r) (hw : w.Valid g)
    (hsound : g.RecordSound record) :
    g.RecordSound r.record := by
  cases hends with
  | budgetSpent => exact hsound
  | cancelled => exact hsound
  | matched _ ht => exact hsound.foldl_weigh (ht.sound_offers hw)
  | exhausted _ ht => exact hsound.foldl_weigh (ht.sound_offers hw)

theorem EndsAt.matches_of_found {w : Walk}
    {record : Option Selection} {r : Report}
    (hends : g.EndsAt tails w record r) (hw : w.Valid g) {s : Selection}
    (hs : r.found = some s) : g.Matches s.positions := by
  cases hends with
  | budgetSpent => exact absurd hs (by simp)
  | cancelled => exact absurd hs (by simp)
  | exhausted => exact absurd hs (by simp)
  | matched _ ht hmove =>
      obtain rfl := Option.some.inj hs
      exact ht.matches_of_found hw hmove

/-- A set of positions that a search may report: a match or a fallback. -/
def Serves (g : Goal) (positions : List ℕ) : Prop :=
  g.Matches positions ∨ g.Contender positions

theorem Serves.choice {positions : List ℕ} (h : g.Serves positions) :
    g.pool.IsChoice positions :=
  h.elim Matches.choice Contender.choice

theorem Serves.nonempty {positions : List ℕ} (h : g.Serves positions) :
    positions ≠ [] :=
  h.elim Matches.nonempty Contender.nonempty

/-- Where a search ends, its walk is valid and its record sound, whatever totals
of the tails it uses. -/
theorem explore_ends_sound (g : Goal) (tails : Array ℤ) (stops : ℕ → Bool)
    (budget : ℕ) :
    ∃ w record, (w.Valid g ∧ g.RecordSound record) ∧
      g.EndsAt tails w record
        (g.explore tails stops budget 0 (.start g.pool) none) := by
  refine @explore_ends g tails
    (fun w record => w.Valid g ∧ g.RecordSound record) ?_ stops
    budget 0 _ _ ⟨g.valid_start, fun _ h => absurd h (by simp)⟩
  intro w record t w' ⟨hw, hsound⟩ ht hmove
  exact ⟨ht.valid hw hmove, hsound.foldl_weigh (ht.sound_offers hw)⟩

/-- Whatever a search reports, left to end or not, serves its goal. -/
theorem serves_of_selection? {limits : Limits} {signal : ℕ → Bool}
    {s : Selection}
    (hs : (g.search limits signal).outcome.selection? = some s) :
    g.Serves s.positions := by
  obtain ⟨w, record, ⟨hw, hsound⟩, hends⟩ :=
    g.explore_ends_sound g.pool.tails (limits.stops signal) limits.iterations
  rw [← search] at hends
  have hrecord := hends.recordSound hw hsound
  have hfound := fun s => hends.matches_of_found hw (s := s)
  generalize g.search limits signal = r at hs hrecord hfound
  unfold Report.outcome at hs
  split at hs
  · rename_i s' hs'
    obtain rfl := Option.some.inj hs
    exact Or.inl (hfound _ hs')
  · rename_i s' _ hs'
    obtain rfl := Option.some.inj hs
    exact Or.inr (hrecord _ hs').2
  · exact absurd hs (by simp [Outcome.selection?])

end Goal
end ExactSpend
