import ExactSpend.Proofs.Search.Reports

/-!
# Ties of the best fallback

Of fallbacks that are as near to the target with as many inputs the cheapest
ranks first.  But only what is offered is ranked, and among equal values offers
do not look at the cost: an overshoot takes the last position, and the positions
that top up a branch are the first ones.  Where that is the cheapest choice the
search keeps a fallback that nothing ranks before.  Otherwise it may keep one
that costs more than it has to.
-/

namespace ExactSpend
namespace Pool

variable {p : Pool}

/-- The cost of spending some positions. -/
def expense (p : Pool) (positions : List ℕ) : ℤ :=
  Signed.total (positions.map p.cost)

@[simp] theorem expense_nil : p.expense [] = 0 := rfl

@[simp] theorem expense_cons (i : ℕ) (positions : List ℕ) :
    p.expense (i :: positions) = p.cost i + p.expense positions := rfl

@[simp] theorem expense_append (xs ys : List ℕ) :
    p.expense (xs ++ ys) = p.expense xs + p.expense ys := by
  simp [expense]

/-- If costs ascend among equal values, no positions from `k` on cost less than
equally many from `k` on without a gap that are worth the same. -/
theorem expense_range'_le
    (hcost : ∀ j < p.size, ∀ i ≤ j, p.value i = p.value j → p.cost i ≤ p.cost j)
    {l : List ℕ} (hinc : l.Pairwise (· < ·)) :
    ∀ {k : ℕ}, (∀ i ∈ l, k ≤ i) → (∀ i ∈ l, i < p.size) →
      p.sum l = p.sum (List.range' k l.length) →
      p.expense (List.range' k l.length) ≤ p.expense l := by
  induction l with
  | nil => simp
  | cons a l ih =>
      intro k hk hsize hsum
      obtain ⟨ha, hinc'⟩ := List.pairwise_cons.mp hinc
      have hka : k ≤ a := hk a (by simp)
      have hasize : a < p.size := hsize a (by simp)
      have hopen : ∀ i ∈ l, k + 1 ≤ i := fun i hi => hka.trans_lt (ha i hi)
      have hsize' : ∀ i ∈ l, i < p.size := fun i hi => hsize i (by simp [hi])
      -- Neither the first values nor the rests can make up for a difference of
      -- the other.
      have hvalue : p.value a ≤ p.value k := value_anti hka hasize
      have hrest : p.sum l ≤ p.sum (List.range' (k + 1) l.length) :=
        sum_le_sum_range' hinc' hopen hsize'
      rw [List.length_cons, sum_range'_succ, sum_cons] at hsum
      have hfirst : p.cost k ≤ p.cost a := hcost a hasize k hka (by omega)
      have hothers := ih hinc' hopen hsize' (by omega)
      rw [List.length_cons, List.range'_succ, expense_cons, expense_cons]
      exact Int.add_le_add hfirst hothers

end Pool

theorem Selection.cost_ofPositions (p : Pool) (positions : List ℕ) :
    (Selection.ofPositions p positions).cost = p.expense positions := rfl

namespace Goal

variable {g : Goal} {w : Walk}

/-- Among equal values the position that offers prefer is the cheapest: above
the target the last one, below the target the first one. -/
def PicksCheapest (g : Goal) : Prop :=
  ∀ j < g.pool.size, ∀ i ≤ j, g.pool.value i = g.pool.value j →
    (g.side = .more → g.pool.cost j ≤ g.pool.cost i) ∧
      (g.side = .less → g.pool.cost i ≤ g.pool.cost j)

instance (g : Goal) : Decidable g.PicksCheapest :=
  inferInstanceAs
    (Decidable (∀ j < g.pool.size, ∀ i ≤ j, g.pool.value i = g.pool.value j →
    (g.side = .more → g.pool.cost j ≤ g.pool.cost i) ∧
      (g.side = .less → g.pool.cost i ≤ g.pool.cost j)))

/-- On the goal's own side of the target a sum is determined by its distance. -/
theorem eq_of_distance_eq {a b : ℤ} (ha : g.admits a = true)
    (hb : g.admits b = true) (h : g.distance a = g.distance b) : a = b := by
  unfold distance at h
  cases hside : g.side with
  | more =>
      have ha' := ((admits_more hside).mp ha).1
      have hb' := ((admits_more hside).mp hb).1
      omega
  | less =>
      have ha' := ((admits_less hside).mp ha).1
      have hb' := ((admits_less hside).mp hb).1
      omega

theorem noWorse_of_outranks {o l : List ℕ}
    (hranks : g.Outranks (Selection.ofPositions g.pool o)
      (g.pool.sum l) l.length)
    (hcost : g.distance (g.pool.sum o) = g.distance (g.pool.sum l) →
      o.length = l.length → g.pool.expense o ≤ g.pool.expense l) :
    g.NoWorse (Selection.ofPositions g.pool o)
      (Selection.ofPositions g.pool l) := by
  rw [Outranks, Selection.sum_ofPositions, Selection.size_ofPositions] at hranks
  rw [noWorse_iff, Selection.sum_ofPositions, Selection.sum_ofPositions,
    Selection.size_ofPositions, Selection.size_ofPositions]
  rcases hranks with hnear | ⟨hnear, hsize⟩
  · exact Or.inl hnear
  · rcases lt_or_eq_of_le hsize with hlt | heq
    · exact Or.inr ⟨hnear, Or.inl hlt⟩
    · exact Or.inr ⟨hnear, Or.inr ⟨heq, hcost hnear heq⟩⟩

/-- Where offers prefer the cheapest of equal values, a list that stands in for
another one ranks no worse. -/
theorem StandsIn.noWorse {o l : List ℕ} (h : g.StandsIn o l)
    (hcheap : g.PicksCheapest) (hadmits : g.admits (g.pool.sum l) = true) :
    g.NoWorse (Selection.ofPositions g.pool o)
      (Selection.ofPositions g.pool l) := by
  obtain ⟨hadmits', hranks⟩ := h.outranks hadmits
  refine noWorse_of_outranks hranks fun hdistance hlength => ?_
  have hsum : g.pool.sum o = g.pool.sum l :=
    eq_of_distance_eq hadmits' hadmits hdistance
  cases h with
  | itself => exact le_refl _
  | @overshoot front tail j k hside _ hjk hk =>
      have hnil : tail = [] := by
        simpa using hlength
      subst hnil
      have hvalue : g.pool.value j = g.pool.value k := by
        simpa using hsum.symm
      have hcost := (hcheap k hk j hjk hvalue).1 hside
      simpa using hcost
  | @topUp front rest k m hside _ hinc hopen hsize =>
      obtain rfl : m = rest.length := by
        simpa using hlength
      have hrest :
          g.pool.sum rest = g.pool.sum (List.range' k rest.length) := by
        simpa using hsum.symm
      have hcost := Pool.expense_range'_le
        (fun j hj i hij hvalue => (hcheap j hj i hij hvalue).2 hside) hinc
          hopen hsize hrest
      simpa using hcost

/-- A list has no place in the record, or the record ranks no worse. -/
def Beaten (g : Goal) (record : Option Selection) (l : List ℕ) : Prop :=
  l ≠ [] → g.admits (g.pool.sum l) = true →
    g.RecordBeats record (Selection.ofPositions g.pool l)

theorem exchangeable_beaten (record : Option Selection) :
    g.pool.Exchangeable (g.Beaten record) := by
  intro front i j tail heq h _ hadmits
  have hvalue : g.pool.value j = g.pool.value i := by
    rw [Pool.value, Pool.value, heq]
  have hcost : g.pool.cost j = g.pool.cost i := by
    rw [Pool.cost, Pool.cost, heq]
  obtain ⟨best, hbest, hnoWorse⟩ :=
    h (by simp) (by simpa [hvalue] using hadmits)
  refine ⟨best, hbest, ?_⟩
  rw [noWorse_iff] at hnoWorse ⊢
  simpa [Selection.ofPositions, Selection.size, hvalue, hcost] using hnoWorse

theorem TurnsTo.covered_beaten {t : Turn} (ht : g.TurnsTo g.pool.tails w t)
    (htarget : g.target ≤ signedMax) (hsum : g.pool.tailSum 0 ≤ signedMax)
    (hcheap : g.PicksCheapest) (hw : w.Valid g) {record : Option Selection}
    (hpassed : g.pool.Swept (g.Beaten record) w) :
    g.pool.Covered
      (g.Beaten (t.offers.foldl (g.weigh g.pool.tails) record)) t.move := by
  refine ht.covered_of_standsIn htarget hw ?_ (exchangeable_beaten _) ?_ ?_
  · exact fun l hl hlt hne hadmits =>
      (hpassed l hl hlt hne hadmits).foldl_weigh _
  · exact fun l hout _ hadmits => absurd (hout.symm.trans hadmits) (by simp)
  · intro o ho l hstands hne hadmits
    have hworth := (ht.sound_offers hw o ho).worth_eq hsum
    obtain ⟨best, hbest, hnoWorse⟩ :=
      recordBeats_foldl_weigh hworth (hstands.ne_nil hne)
      (hstands.outranks hadmits).1 ho record
    exact ⟨best, hbest, hnoWorse.trans (hstands.noWorse hcheap hadmits)⟩

/-- A goal over two coins of one value, the first of which is cheaper to
spend. -/
def ofTwinCoins : Goal where
  side := .more
  pool := {
    target := 10
    candidates := #[⟨12, 1⟩, ⟨12, 5⟩]
    inputLimit := 1
    target_pos := by decide
    inputLimit_pos := by decide
    value_pos := by decide
    descending := by decide }
  tolerance := 0
  percent := 125

end Goal
end ExactSpend
