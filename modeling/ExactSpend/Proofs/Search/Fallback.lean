import ExactSpend.Proofs.Search.Record
import ExactSpend.Proofs.Search.Sweep

/-!
# The best fallback

Of all sets of positions whose sum may serve as a fallback, a search that ends
without a match keeps one that is nearest to the target and, among these, has
the fewest inputs.  Only few sets are ever offered to the record.  Whatever
else a turn passes over is no better than an offer of the same turn: a list
that overshoots no better than the smallest overshoot, a list of a branch that
is cut no better than the largest positions that fit.
-/

namespace ExactSpend
namespace Goal

variable {g : Goal} {tails : Array ℤ} {w : Walk}

/-- A selection is nearer to the target than `sum`, or as near with no more
than `size` inputs. -/
def Outranks (g : Goal) (s : Selection) (sum : ℤ) (size : ℕ) : Prop :=
  g.distance s.sum < g.distance sum ∨
    g.distance s.sum = g.distance sum ∧ s.size ≤ size

/-- A nonempty set of this sum and size has no place in the record, or the
record outranks it. -/
def Settled (g : Goal) (record : Option Selection) (sum : ℤ)
    (size : ℕ) : Prop :=
  g.admits sum = true → 0 < size → ∃ best, record = some best ∧
    g.Outranks best sum size

theorem outranks_self (positions : List ℕ) :
    g.Outranks (Selection.ofPositions g.pool positions) (g.pool.sum positions)
      positions.length :=
  Or.inr ⟨rfl, le_refl _⟩

theorem NoWorse.outranks {a b : Selection} (hab : g.NoWorse a b)
    {sum : ℤ} {size : ℕ}
    (hb : g.Outranks b sum size) : g.Outranks a sum size := by
  rw [noWorse_iff] at hab
  unfold Outranks at hb ⊢
  omega

theorem Settled.foldl_weigh {record : Option Selection} {sum : ℤ} {size : ℕ}
    (h : g.Settled record sum size) (offers : List Offer) :
    g.Settled (offers.foldl (g.weigh tails) record) sum size := by
  intro hadmits hsize
  obtain ⟨best, hbest, hranks⟩ := h hadmits hsize
  obtain ⟨best', hbest', hnoWorse⟩ :=
    @RecordBeats.foldl_weigh g tails best offers record
      ⟨best, hbest, NoWorse.refl best⟩
  exact ⟨best', hbest', hnoWorse.outranks hranks⟩

theorem admits_more (hside : g.side = .more) {sum : ℤ} :
    g.admits sum = true ↔ g.target ≤ sum ∧
      sum * 100 ≤ g.target * g.percent := by
  simp [admits, hside]

theorem admits_less (hside : g.side = .less) {sum : ℤ} :
    g.admits sum = true ↔ sum ≤ g.target ∧
      g.target * g.percent ≤ sum * 100 := by
  simp [admits, hside]

/-- Above the target the smaller sum is admitted with the larger one and ranks
no worse. -/
theorem outranks_of_over {positions : List ℕ} {sum : ℤ} {size : ℕ}
    (hside : g.side = .more) (htarget : g.target ≤ g.pool.sum positions)
    (hle : g.pool.sum positions ≤ sum)
    (hsize : positions.length ≤ size) (hadmits : g.admits sum = true) :
    g.admits (g.pool.sum positions) = true ∧
      g.Outranks (Selection.ofPositions g.pool positions) sum size := by
  rw [admits_more hside] at hadmits ⊢
  refine ⟨⟨htarget, by omega⟩, ?_⟩
  rw [Outranks, Selection.sum_ofPositions, Selection.size_ofPositions]
  unfold distance
  omega

/-- Below the target the larger sum is admitted with the smaller one and ranks
before it. -/
theorem outranks_of_under {positions : List ℕ} {sum : ℤ} {size : ℕ}
    (hside : g.side = .less) (htarget : g.pool.sum positions ≤ g.target)
    (hle : sum ≤ g.pool.sum positions)
    (hsize : sum = g.pool.sum positions → positions.length ≤ size)
    (hadmits : g.admits sum = true) :
    g.admits (g.pool.sum positions) = true ∧
      g.Outranks (Selection.ofPositions g.pool positions) sum size := by
  rw [admits_less hside] at hadmits ⊢
  refine ⟨⟨htarget, by omega⟩, ?_⟩
  rw [Outranks, Selection.sum_ofPositions, Selection.size_ofPositions]
  rcases eq_or_lt_of_le hle with heq | hlt
  · exact Or.inr ⟨by rw [heq], hsize heq⟩
  · refine Or.inl ?_
    unfold distance
    omega

/-! ## What stands in for what a turn passes over -/

/-- What an offered list stands in for: for itself, as the smallest overshoot
for the lists that overshoot at the same place, and as the largest positions
that fit for the lists of a branch that is out of reach of the band. -/
inductive StandsIn (g : Goal) : List ℕ → List ℕ → Prop
  | itself (l : List ℕ) : StandsIn g l l
  | overshoot {front tail : List ℕ} {j k : ℕ} (hside : g.side = .more)
      (htarget : g.target ≤ g.pool.sum (front ++ [k])) (hjk : j ≤ k)
        (hk : k < g.pool.size) :
      StandsIn g (front ++ [k]) (front ++ j :: tail)
  | topUp {front rest : List ℕ} {k m : ℕ} (hside : g.side = .less)
      (htarget : g.pool.sum (front ++ List.range' k m) ≤ g.target)
      (hinc : rest.Pairwise (· < ·)) (hopen : ∀ i ∈ rest, k ≤ i)
      (hsize : ∀ i ∈ rest, i < g.pool.size) (hlength : rest.length ≤ m)
      (hlast : k + m ≤ g.pool.size) :
        StandsIn g (front ++ List.range' k m) (front ++ rest)

theorem StandsIn.ne_nil {o l : List ℕ} (h : g.StandsIn o l)
    (hl : l ≠ []) : o ≠ [] := by
  cases h with
  | itself => exact hl
  | overshoot => simp
  | topUp _ _ _ _ _ hlength =>
      rw [← List.length_pos_iff_ne_nil] at hl ⊢
      rw [List.length_append] at hl ⊢
      rw [List.length_range']
      omega

/-- A list that stands in for another one is admitted with it and outranks
it. -/
theorem StandsIn.outranks {o l : List ℕ} (h : g.StandsIn o l)
    (hadmits : g.admits (g.pool.sum l) = true) :
    g.admits (g.pool.sum o) = true ∧
      g.Outranks (Selection.ofPositions g.pool o) (g.pool.sum l) l.length := by
  cases h with
  | itself => exact ⟨hadmits, outranks_self _⟩
  | @overshoot front tail j k hside htarget hjk hk =>
      -- The last position that overshoots has the smallest value that does.
      have hvalue : g.pool.value k ≤ g.pool.value j := Pool.value_anti hjk hk
      have hle :
          g.pool.sum (front ++ [k]) ≤ g.pool.sum (front ++ j :: tail) := by
        have htail := g.pool.sum_nonneg tail
        simp only [Pool.sum_append, Pool.sum_cons, Pool.sum_nil]
        omega
      exact outranks_of_over hside htarget hle (by simp) hadmits
  | @topUp front rest k m hside htarget hinc hopen hsize hlength hlast =>
      obtain ⟨hle, hlonger⟩ :=
        Pool.sum_le_sum_first hinc hopen hsize hlength hlast
      have hle' : g.pool.sum (front ++ rest) ≤
          g.pool.sum (front ++ List.range' k m) := by
        rw [Pool.sum_append, Pool.sum_append]
        exact Int.add_le_add_left hle _
      refine outranks_of_under hside htarget hle' (fun heq => ?_) hadmits
      rw [Pool.sum_append, Pool.sum_append] at heq
      have hlength' := hlonger (Int.add_left_cancel heq)
      rw [List.length_append, List.length_append, List.length_range']
      exact Nat.add_le_add_left hlength' _

/-- An offer settles every list that it stands in for. -/
theorem StandsIn.settled {o : Offer} {l : List ℕ} (h : g.StandsIn o.positions l)
    (hworth : o.worth tails = g.pool.sum o.positions) {offers : List Offer}
    (ho : o ∈ offers) (record : Option Selection) :
    g.Settled (offers.foldl (g.weigh tails) record)
      (g.pool.sum l) l.length := by
  intro hadmits hlength
  obtain ⟨hadmits', hranks⟩ := h.outranks hadmits
  have hne := h.ne_nil (List.ne_nil_of_length_pos hlength)
  obtain ⟨best, hbest, hnoWorse⟩ :=
    recordBeats_foldl_weigh hworth hne hadmits' ho record
  exact ⟨best, hbest, hnoWorse.outranks hranks⟩

/-- The offer of the smallest overshoot stands in for the lists that
overshoot. -/
theorem standsIn_overshoot (htarget : g.target ≤ signedMax) (hw : w.Valid g)
    {j : ℕ} (tail : List ℕ) (hj : w.next ≤ j) (hjump : j < g.firstFit w)
    (hside : g.side = .more) :
    ∃ o ∈ g.overshoot w,
      g.StandsIn o.positions (w.taken.reverse ++ j :: tail) := by
  have hopen : g.allowsOvershoot = true ∧ w.next < g.firstFit w :=
    ⟨decide_eq_true hside, lt_of_le_of_lt hj hjump⟩
  have hsize := (firstFit_spec hw).2.1
  have hover : g.highest < g.pool.sum (w.taken.reverse ++ [g.firstFit w - 1]) :=
    highest_lt_sum hw [] (Nat.le_sub_one_of_lt hopen.2)
      (Nat.sub_one_lt_of_lt hopen.2)
  refine ⟨w.offer (g.firstFit w - 1) (g.firstFit w), ?_, ?_⟩
  · rw [overshoot, if_pos hopen]
    exact List.mem_singleton_self _
  · rw [w.positions_offer_pred (Nat.zero_lt_of_lt hjump)]
    have hreach := (target_le_highest htarget).trans hover.le
    exact .overshoot hside hreach (Nat.le_sub_one_of_lt hjump) (by omega)

/-- The number of positions with which a branch that is cut is topped up. -/
def topUpSize (g : Goal) (w : Walk) : ℕ :=
  min w.slots (g.pool.size - g.firstFit w)

theorem topUp_positions (g : Goal) (w : Walk) :
    (g.topUp w).positions =
      w.taken.reverse ++ List.range' (g.firstFit w) (g.topUpSize w) := by
  simp [topUp, topUpSize, Offer.positions, Walk.offer]

theorem sum_topUp (hw : w.Valid g) :
    g.pool.sum (g.topUp w).positions =
      w.total + g.pool.sum (List.range' (g.firstFit w) (g.topUpSize w)) := by
  rw [topUp_positions, Pool.sum_append, Pool.sum_reverse, hw.total_eq]

theorem sum_topUp_lt (hw : w.Valid g)
    (hreach : w.total + g.pool.tailSum (g.firstFit w) < g.lowest) :
    g.pool.sum (g.topUp w).positions < g.lowest := by
  have hrest : g.pool.sum (List.range' (g.firstFit w) (g.topUpSize w)) ≤
      g.pool.tailSum (g.firstFit w) := Pool.sum_range'_le (Nat.min_le_right _ _)
  rw [sum_topUp hw]
  omega

/-- The largest positions that fit stand in for the lists of a branch that is
cut. -/
theorem standsIn_topUp (hw : w.Valid g) (hfit : g.firstFit w < g.pool.size)
    (hreach : w.total + g.pool.tailSum (g.firstFit w) < g.lowest) {j : ℕ}
    {tail : List ℕ} (hl : g.pool.IsChoice (w.taken.reverse ++ j :: tail))
    (hj : g.firstFit w ≤ j) (hside : g.side = .less) :
    g.StandsIn (g.topUp w).positions (w.taken.reverse ++ j :: tail) := by
  have hinc := (List.pairwise_append.mp hl.increasing).2.1
  have hopen := le_of_mem_cons hinc hj
  have hsize : ∀ i ∈ j :: tail, i < g.pool.size :=
    fun i hi => hl.lt_size i (by simp [hi])
  have hmissed := sum_topUp_lt hw hreach
  have hlowest := g.lowest_le_target
  rw [topUp_positions] at hmissed ⊢
  refine .topUp hside (by omega) hinc hopen hsize ?_ ?_
  · have hroom := Pool.length_le_of_increasing hinc hopen hsize
    have hlimit := hl.length_le
    have hadd := hw.slots_add
    rw [List.length_append, List.length_reverse] at hlimit
    unfold topUpSize
    omega
  · unfold topUpSize
    omega

/-- Of the lists that a turn passes over, those that may serve as a fallback
have an offer of the turn that stands in for them. -/
theorem TurnsTo.covered_of_standsIn {t : Turn} (ht : g.TurnsTo g.pool.tails w t)
    (htarget : g.target ≤ signedMax) (hw : w.Valid g) {Done : List ℕ → Prop}
    (hswept : g.pool.Swept Done w) (hexch : g.pool.Exchangeable Done)
    (hout : ∀ l, g.admits (g.pool.sum l) = false → Done l)
    (hoffer : ∀ o ∈ t.offers, ∀ l, g.StandsIn o.positions l → Done l) :
    g.pool.Covered Done t.move := by
  refine ht.covered hw hswept hexch ?_ ?_ ?_
  · intro hoffers j tail _ hj hjump
    cases hside : g.side with
    | more =>
        obtain ⟨o, ho, hstands⟩ :=
          standsIn_overshoot htarget hw tail hj hjump hside
        exact hoffer o (hoffers ho) _ hstands
    | less =>
        have hover := highest_lt_sum hw tail hj hjump
        have hhighest := g.target_le_highest htarget
        refine hout _ (Bool.eq_false_iff.mpr fun hadmits => ?_)
        exact absurd ((admits_less hside).mp hadmits).1
          (not_le.mpr (hhighest.trans_lt hover))
  · intro hmem _ hfit hreach j tail hl hj
    have hreach' := total_add_tailSum_lt hw htarget hfit hreach
    cases hside : g.side with
    | more =>
        have hunder := sum_lt_lowest hw hreach' hl hj
        refine hout _ (Bool.eq_false_iff.mpr fun hadmits => ?_)
        have hadmitted := ((admits_more hside).mp hadmits).1
        exact absurd (g.lowest_le_target.trans hadmitted) (not_le.mpr hunder)
    | less => exact hoffer _ hmem _ (standsIn_topUp hw hfit hreach' hl hj hside)
  · intro hmem _ _ _
    refine hoffer _ hmem _ ?_
    rw [g.pool.positions_offer_take]
    exact .itself _

/-! ## Whole searches -/

/-- What a search preserves while its offers account for what it passes: the
walk is valid, all that it passed is accounted for, and the record holds a
contender if anything. -/
structure AccountsAt (g : Goal)
    (Done : Option Selection → List ℕ → Prop) (w : Walk)
    (record : Option Selection) : Prop where
  valid : w.Valid g
  passed : g.pool.Swept (Done record) w
  sound : g.RecordSound record

/-- If the record accounts for all that the turns pass over, then the record
with which an exhausted search ends accounts for every set of positions. -/
theorem search_exhausted_accounts {Done : Option Selection → List ℕ → Prop}
    (hnil : Done none [])
    (hturn : ∀ {w record t}, g.TurnsTo g.pool.tails w t → w.Valid g →
      g.pool.Swept (Done record) w →
      g.pool.Covered
        (Done (t.offers.foldl (g.weigh g.pool.tails) record)) t.move)
    {limits : Limits} {signal : ℕ → Bool}
    (hend : (g.search limits signal).ending = .exhausted) :
    (g.search limits signal).found = none ∧
      g.RecordSound (g.search limits signal).record ∧
      ∀ l, g.pool.IsChoice l → Done (g.search limits signal).record l := by
  have hstart : g.AccountsAt Done (.start g.pool) none :=
    ⟨g.valid_start, Pool.swept_start hnil, fun _ hs => absurd hs (by simp)⟩
  have hstep : ∀ w record t w', g.AccountsAt Done w record →
      g.TurnsTo g.pool.tails w t → t.move = .onward w' →
      g.AccountsAt Done w' (t.offers.foldl (g.weigh g.pool.tails) record) := by
    intro w record t w' ⟨hw, hpassed, hsound⟩ ht hmove
    have hcovered := hturn ht hw hpassed
    rw [hmove] at hcovered
    exact ⟨ht.valid hw hmove, hcovered, hsound.foldl_weigh (ht.sound_offers hw)⟩
  obtain ⟨w, record, ⟨hw, hpassed, hsound⟩, hends⟩ :=
    search_ends hstart hstep limits signal
  generalize g.search limits signal = r at hend hends ⊢
  cases hends with
  | budgetSpent => simp at hend
  | cancelled => simp at hend
  | matched => simp at hend
  | @exhausted _ t ht hmove =>
      have hcovered := hturn ht hw hpassed
      rw [hmove] at hcovered
      exact ⟨rfl, hsound.foldl_weigh (ht.sound_offers hw), hcovered⟩

theorem TurnsTo.covered_settled {t : Turn} (ht : g.TurnsTo g.pool.tails w t)
    (htarget : g.target ≤ signedMax) (hsum : g.pool.tailSum 0 ≤ signedMax)
    (hw : w.Valid g) {record : Option Selection}
    (hpassed :
      g.pool.Swept (fun l => g.Settled record (g.pool.sum l) l.length) w) :
    g.pool.Covered
      (fun l => g.Settled (t.offers.foldl (g.weigh g.pool.tails) record)
        (g.pool.sum l) l.length) t.move := by
  refine ht.covered_of_standsIn htarget hw
    (fun l hl hlt => (hpassed l hl hlt).foldl_weigh _) ?_ ?_ ?_
  · exact exchangeable_of_sum (R := g.Settled _)
  · exact fun l hout hadmits => absurd (hout.symm.trans hadmits) (by simp)
  · exact fun o ho l hstands =>
      hstands.settled ((ht.sound_offers hw o ho).worth_eq hsum) ho record

/-- The record with which an exhausted search ends holds nothing but a
contender, and it outranks every contender. -/
theorem search_exhausted_record (htarget : g.target ≤ signedMax)
    (hsum : g.pool.tailSum 0 ≤ signedMax) {limits : Limits} {signal : ℕ → Bool}
    (hend : (g.search limits signal).ending = .exhausted) :
    (g.search limits signal).found = none ∧
      g.RecordSound (g.search limits signal).record ∧
      ∀ l, g.Contender l → ∃ best, (g.search limits signal).record = some best ∧
        g.Outranks best (g.pool.sum l) l.length := by
  obtain ⟨hfound, hsound, hsettled⟩ := @search_exhausted_accounts g
    (fun record l => g.Settled record (g.pool.sum l) l.length)
    (fun _ hlength => absurd hlength (lt_irrefl 0))
    (fun ht hw hpassed => ht.covered_settled htarget hsum hw hpassed)
      limits signal hend
  refine ⟨hfound, hsound, fun l hl => ?_⟩
  exact hsettled l hl.choice hl.admitted (List.length_pos_of_ne_nil hl.nonempty)

/-- When the values total no more than the ceiling, a search that has gone
through everything ends with a best effort exactly when some set of positions
may serve as a fallback.  Its selection is such a set, and of all of them none
is nearer to the target, and none as near has fewer inputs. -/
theorem search_exhausted_best (htarget : g.target ≤ signedMax)
    (hsum : Signed.total (g.pool.candidates.toList.map (·.value)) ≤ signedMax)
    (limits : Limits) (signal : ℕ → Bool)
    (hend : (g.search limits signal).ending = .exhausted) :
    ((∃ s, (g.search limits signal).outcome = .bestEffort s) ↔
      ∃ l, g.Contender l) ∧
      ((g.search limits signal).outcome = .noMatch ↔ ¬∃ l, g.Contender l) ∧
      ∀ s, (g.search limits signal).outcome = .bestEffort s →
        s = Selection.ofPositions g.pool s.positions ∧ g.Contender s.positions ∧
          ∀ l, g.Contender l →
            g.distance s.sum < g.distance (g.pool.sum l) ∨
              g.distance s.sum = g.distance (g.pool.sum l) ∧
                s.size ≤ l.length := by
  rw [← Pool.tailSum_zero] at hsum
  obtain ⟨hfound, hsound, hbest⟩ := search_exhausted_record htarget hsum hend
  generalize g.search limits signal = r at hfound hsound hbest ⊢
  cases hrecord : r.record with
  | none =>
      have hnone : ¬∃ l, g.Contender l := by
        rintro ⟨l, hl⟩
        obtain ⟨best, hsome, -⟩ := hbest l hl
        exact absurd (hrecord.symm.trans hsome) (by simp)
      simpa [Report.outcome, hfound, hrecord] using hnone
  | some s =>
      obtain ⟨hs, hcontender⟩ := hsound s hrecord
      have hany : ∃ l, g.Contender l := ⟨_, hcontender⟩
      refine ⟨?_, ?_, ?_⟩
      · simpa [Report.outcome, hfound, hrecord] using hany
      · simpa [Report.outcome, hfound, hrecord] using hany
      · intro s' hs'
        obtain rfl :
            s = s' := by simpa [Report.outcome, hfound, hrecord] using hs'
        refine ⟨hs, hcontender, fun l hl => ?_⟩
        obtain ⟨best, hsome, hranks⟩ := hbest l hl
        obtain rfl := Option.some.inj (hrecord.symm.trans hsome)
        exact hranks

theorem search_exhausted_best_of_five :
    (ofFiveCoins .more 18 (by decide)).target ≤ signedMax ∧
      Signed.total
        ((ofFiveCoins .more 18 (by decide)).pool.candidates.toList.map
          (·.value)) ≤ signedMax ∧
      ((ofFiveCoins .more 18 (by decide)).search ⟨100, 1⟩
        fun _ => false).ending = .exhausted ∧
      (ofFiveCoins .more 18 (by decide)).Contender [1, 3, 4] := by
  have htarget : (ofFiveCoins .more 18 (by decide)).target ≤ signedMax := by
    decide
  have hsum : Signed.total
      ((ofFiveCoins .more 18 (by decide)).pool.candidates.toList.map
        (·.value)) ≤
        signedMax := by decide
  have hend :
      ((ofFiveCoins .more 18 (by decide)).search ⟨100, 1⟩
        fun _ => false).ending = .exhausted := by decide
  have hbest :
      ((ofFiveCoins .more 18 (by decide)).search ⟨100, 1⟩
        fun _ => false).outcome =
      .bestEffort ⟨[1, 3, 4], [10, 5, 4], 19, 3⟩ := by decide
  have hspec :=
    search_exhausted_best htarget hsum ⟨100, 1⟩ (fun _ => false) hend
  exact ⟨htarget, hsum, hend, (hspec.2.2 _ hbest).2.1⟩

end Goal
end ExactSpend
