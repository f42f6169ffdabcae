import ExactSpend.Proofs.Search.Positions

/-!
# The invariant of a search

At every turn the positions taken ascend and lie before the open ones, their
total is exact and stays below the band, and the inputs taken and still allowed
add up to the limit.  The module first lists what a turn can do, so that facts
about a whole search need one case for each kind of turn.
-/

namespace ExactSpend

namespace Goal

variable {g : Goal} {tails : Array ℤ} {w : Walk}

/-- The first open position whose value fits the room. -/
def firstFit (g : Goal) (w : Walk) : ℕ :=
  g.pool.firstFitting (g.highest - w.total) w.next

/-- The offer of the smallest overshoot, where there is one of use. -/
def overshoot (g : Goal) (w : Walk) : List Offer :=
  if g.allowsOvershoot ∧ w.next < g.firstFit w then
    [w.offer (g.firstFit w - 1) (g.firstFit w)]
  else []

/-- The offer of the largest open positions that fit. -/
def topUp (g : Goal) (w : Walk) : Offer :=
  w.offer (g.firstFit w) (g.firstFit w +
    min w.slots (g.pool.size - g.firstFit w))

theorem mem_overshoot {o : Offer} (ho : o ∈ g.overshoot w) :
    g.side = .more ∧ ∃ i, w.next ≤ i ∧ i < g.firstFit w ∧
      o = w.offer i (i + 1) := by
  by_cases hjump : g.allowsOvershoot = true ∧ w.next < g.firstFit w
  · have hpred : g.firstFit w - 1 + 1 = g.firstFit w := by omega
    rw [overshoot, if_pos hjump, List.mem_singleton] at ho
    refine ⟨of_decide_eq_true hjump.1, g.firstFit w - 1, by omega, by omega, ?_⟩
    rw [hpred]
    exact ho
  · rw [overshoot, if_neg hjump] at ho
    cases ho

/-- The turns that a search can make at a walk. -/
inductive TurnsTo (g : Goal) (tails : Array ℤ) (w : Walk) : Turn → Prop
  | blocked (hblocked : w.slots = 0 ∨ g.pool.size ≤ w.next) :
      TurnsTo g tails w ⟨[], g.pool.retreat w⟩
  | overshooting (hslots : 0 < w.slots) (hnext : w.next < g.pool.size)
      (hfit : g.pool.size ≤ g.firstFit w) :
      TurnsTo g tails w ⟨g.overshoot w, g.pool.retreat w⟩
  | cut (hslots : 0 < w.slots) (hnext : w.next < g.pool.size)
      (hfit : g.firstFit w < g.pool.size)
      (hreach : Signed.add w.total (tails.getD (g.firstFit w) 0) < g.lowest) :
      TurnsTo g tails w ⟨g.overshoot w ++ [g.topUp w], g.pool.retreat w⟩
  | matched (hslots : 0 < w.slots) (hnext : w.next < g.pool.size)
      (hfit : g.firstFit w < g.pool.size)
      (hmatch : g.isMatch (g.pool.take w (g.firstFit w)).total = true) :
      TurnsTo g tails w ⟨g.overshoot w, .found (g.firstFit w :: w.taken)⟩
  | descended (hslots : 0 < w.slots) (hnext : w.next < g.pool.size)
      (hfit : g.firstFit w < g.pool.size)
      (hmiss : g.isMatch (g.pool.take w (g.firstFit w)).total = false) :
      TurnsTo g tails w
        ⟨g.overshoot w ++
            [(g.pool.take w (g.firstFit w)).offer (g.firstFit w + 1)
              (g.firstFit w + 1)],
          .onward (g.pool.take w (g.firstFit w))⟩

theorem turn_eq (g : Goal) (tails : Array ℤ) (w : Walk) :
    g.turn tails w =
      if w.slots = 0 ∨ g.pool.size ≤ w.next then ⟨[], g.pool.retreat w⟩
      else if g.pool.size ≤ g.firstFit w then ⟨g.overshoot w, g.pool.retreat w⟩
      else if g.lowest ≤ Signed.add w.total (tails.getD (g.firstFit w) 0) then
        if g.isMatch (g.pool.take w (g.firstFit w)).total then
          ⟨g.overshoot w, .found (g.firstFit w :: w.taken)⟩
        else
          ⟨g.overshoot w ++
              [(g.pool.take w (g.firstFit w)).offer (g.firstFit w + 1)
                (g.firstFit w + 1)],
            .onward (g.pool.take w (g.firstFit w))⟩
      else ⟨g.overshoot w ++ [g.topUp w], g.pool.retreat w⟩ :=
  rfl

theorem turn_cases (g : Goal) (tails : Array ℤ) (w : Walk) :
    g.TurnsTo tails w (g.turn tails w) := by
  rw [turn_eq]
  by_cases hblocked : w.slots = 0 ∨ g.pool.size ≤ w.next
  · rw [if_pos hblocked]
    exact .blocked hblocked
  · have hslots : 0 < w.slots := by omega
    have hnext : w.next < g.pool.size := by omega
    rw [if_neg hblocked]
    by_cases hfit : g.pool.size ≤ g.firstFit w
    · rw [if_pos hfit]
      exact .overshooting hslots hnext hfit
    · have hfit' : g.firstFit w < g.pool.size := not_le.mp hfit
      rw [if_neg hfit]
      by_cases hreach :
        g.lowest ≤ Signed.add w.total (tails.getD (g.firstFit w) 0)
      · rw [if_pos hreach]
        by_cases hmatch : g.isMatch (g.pool.take w (g.firstFit w)).total = true
        · rw [if_pos hmatch]
          exact .matched hslots hnext hfit' hmatch
        · rw [if_neg hmatch]
          exact .descended hslots hnext hfit' (Bool.eq_false_iff.mpr hmatch)
      · rw [if_neg hreach]
        exact .cut hslots hnext hfit' (not_le.mp hreach)

end Goal

/-- What holds of every walk that a search for `g` comes to. -/
structure Walk.Valid (g : Goal) (w : Walk) : Prop where
  descending : w.taken.Pairwise (· > ·)
  lt_next : ∀ i ∈ w.taken, i < w.next
  next_le : w.next ≤ g.pool.size
  total_eq : w.total = g.pool.sum w.taken
  slots_add : w.slots + w.taken.length = g.pool.inputLimit
  total_lt : w.total < g.lowest

namespace Goal

variable {g : Goal} {tails : Array ℤ} {w w' : Walk}

theorem lowest_pos (g : Goal) : 0 < g.lowest := by
  have := g.pool.target_pos
  unfold lowest
  split
  · exact this
  · omega

theorem lowest_le_target (g : Goal) : g.lowest ≤ g.target := by
  have hpos : 0 < g.target := g.pool.target_pos
  have := Signed.ofCount_nonneg g.tolerance
  unfold lowest
  split
  · exact le_refl _
  · omega

theorem target_le_highest (htarget : g.target ≤ signedMax) :
    g.target ≤ g.highest := by
  have := Signed.ofCount_nonneg g.tolerance
  unfold highest Signed.add
  split
  · omega
  · exact le_refl _

theorem isMatch_iff {sum : ℤ} :
    g.isMatch sum = true ↔ g.lowest ≤ sum ∧ sum ≤ g.highest := by
  simp [isMatch]

/-- From above, the band is the tolerance as long as sums stay below the
ceiling. -/
theorem isMatch_more_iff (hside : g.side = .more) {sum : ℤ} :
    g.isMatch sum = true ↔
      g.target ≤ sum ∧ sum ≤ g.target + g.tolerance ∧ sum ≤ signedMax := by
  have hpos : 0 < g.target := g.pool.target_pos
  rw [isMatch_iff, lowest, highest, hside]
  unfold Signed.add Signed.ofCount
  simp only
  omega

/-- From below, the band is the tolerance down to one. -/
theorem isMatch_less_iff (hside : g.side = .less)
    (htarget : g.target ≤ signedMax) {sum : ℤ} :
    g.isMatch sum = true ↔ max 1 (g.target - g.tolerance) ≤ sum ∧
      sum ≤ g.target := by
  rw [isMatch_iff, lowest, highest, hside]
  unfold Signed.ofCount
  simp only
  omega

theorem valid_start (g : Goal) : (Walk.start g.pool).Valid g where
  descending := List.Pairwise.nil
  lt_next := by simp [Walk.start]
  next_le := Nat.zero_le _
  total_eq := rfl
  slots_add := rfl
  total_lt := g.lowest_pos

theorem firstFit_spec (hw : w.Valid g) :
    w.next ≤ g.firstFit w ∧ g.firstFit w ≤ g.pool.size ∧
      (∀ i, w.next ≤ i → i < g.firstFit w →
        g.highest < w.total + g.pool.value i) ∧
      (g.firstFit w < g.pool.size →
        w.total + g.pool.value (g.firstFit w) ≤ g.highest) := by
  obtain ⟨hle, hsize, hbefore, hat⟩ :=
    Pool.firstFitting_spec (p := g.pool) (g.highest - w.total) hw.next_le
  refine ⟨hle, hsize, fun i hi hlt => ?_, fun h => ?_⟩
  · have := hbefore i hi hlt
    omega
  · have : g.pool.value (g.firstFit w) ≤ g.highest - w.total := hat h
    omega

/-- The positions taken and a run of open ones form a set of positions if as
many inputs are still allowed. -/
theorem isChoice_append_range' (hw : w.Valid g) {first count : ℕ}
    (hfirst : w.next ≤ first)
    (hlast : first + count ≤ g.pool.size) (hcount : count ≤ w.slots) :
    g.pool.IsChoice (w.taken.reverse ++ List.range' first count) := by
  refine ⟨?_, ?_, ?_⟩
  · rw [List.pairwise_append]
    refine ⟨List.pairwise_reverse.mpr hw.descending,
      List.pairwise_lt_range', ?_⟩
    intro i hi j hj
    have hi' := hw.lt_next i (List.mem_reverse.mp hi)
    have hj' := (List.mem_range'_1.mp hj).1
    omega
  · intro i hi
    rcases List.mem_append.mp hi with hi | hi
    · exact lt_of_lt_of_le (hw.lt_next i (List.mem_reverse.mp hi)) hw.next_le
    · have := (List.mem_range'_1.mp hi).2
      omega
  · have := hw.slots_add
    simp only [List.length_append, List.length_reverse, List.length_range']
    omega

theorem sum_extension (hw : w.Valid g) (j : ℕ) (tail : List ℕ) :
    g.pool.sum (w.taken.reverse ++ j :: tail) =
      w.total + (g.pool.value j + g.pool.sum tail) := by
  rw [Pool.sum_append, Pool.sum_reverse, Pool.sum_cons, hw.total_eq]

theorem sum_extension_singleton (hw : w.Valid g) (i : ℕ) :
    g.pool.sum (w.taken.reverse ++ [i]) = w.total + g.pool.value i := by
  rw [sum_extension hw, Pool.sum_nil, add_zero]

/-- A fitting candidate that misses the band leaves the sum below it. -/
theorem valid_take (hw : w.Valid g) (hslots : 0 < w.slots)
    (hfit : g.firstFit w < g.pool.size)
    (hmiss : g.isMatch (g.pool.take w (g.firstFit w)).total = false) :
    (g.pool.take w (g.firstFit w)).Valid g := by
  obtain ⟨hnext, -, -, hroom⟩ := firstFit_spec hw
  refine ⟨?_, ?_, hfit, ?_, ?_, ?_⟩
  · exact List.pairwise_cons.mpr
      ⟨fun i hi => lt_of_lt_of_le (hw.lt_next i hi) hnext, hw.descending⟩
  · intro i hi
    rcases List.mem_cons.mp hi with rfl | hi
    · exact Nat.lt_succ_self _
    · exact Nat.lt_succ_of_lt (lt_of_lt_of_le (hw.lt_next i hi) hnext)
  · simp only [Pool.take, Pool.sum_cons, hw.total_eq]
    omega
  · have := hw.slots_add
    simp only [Pool.take, List.length_cons]
    omega
  · have hle : (g.pool.take w (g.firstFit w)).total ≤ g.highest := hroom hfit
    have hnot := mt isMatch_iff.mpr (Bool.eq_false_iff.mp hmiss)
    exact not_le.mp fun hge => hnot ⟨hge, hle⟩

theorem retreat_eq_onward (h : g.pool.retreat w = .onward w') :
    ∃ i rest, w.taken = i :: rest ∧
      w' = ⟨rest, w.total - g.pool.value i, w.slots + 1,
        g.pool.skipEqual i (g.pool.size - (i + 1)) (i + 1)⟩ := by
  unfold Pool.retreat at h
  split at h
  · exact absurd h (by simp)
  · rename_i i rest htaken
    exact ⟨i, rest, htaken, (Move.onward.inj h).symm⟩

theorem retreat_ne_found (w : Walk) {taken : List ℕ} :
    g.pool.retreat w ≠ .found taken := by
  unfold Pool.retreat
  split <;> simp

theorem valid_retreat (hw : w.Valid g) (h : g.pool.retreat w = .onward w') :
    w'.Valid g := by
  obtain ⟨i, rest, htaken, rfl⟩ := retreat_eq_onward h
  obtain ⟨hbelow, hdesc⟩ := List.pairwise_cons.mp (htaken ▸ hw.descending)
  have hi : i < w.next := hw.lt_next i (by simp [htaken])
  have hsize : i < g.pool.size := lt_of_lt_of_le hi hw.next_le
  obtain ⟨hskip, hskip', -⟩ :=
    Pool.skipEqual_spec (p := g.pool) i (g.pool.size - (i + 1)) (i + 1)
  have htotal : w.total = g.pool.value i + g.pool.sum rest := by
    rw [hw.total_eq, htaken, Pool.sum_cons]
  refine ⟨hdesc, fun j hj => ?_, by simp only; omega,
    by simp only; omega, ?_, ?_⟩
  · exact lt_of_lt_of_le (lt_trans (hbelow j hj) (Nat.lt_succ_self i)) hskip
  · have := hw.slots_add
    rw [htaken, List.length_cons] at this
    simp only
    omega
  · have := g.pool.value_nonneg i
    have := hw.total_lt
    simp only
    omega

/-- Every turn that goes on leads to a valid walk again. -/
theorem TurnsTo.valid {t : Turn} (ht : g.TurnsTo tails w t) (hw : w.Valid g)
    (h : t.move = .onward w') : w'.Valid g := by
  cases ht with
  | blocked => exact valid_retreat hw h
  | overshooting => exact valid_retreat hw h
  | cut => exact valid_retreat hw h
  | matched => simp at h
  | descended hslots _ hfit hmiss =>
      cases h
      exact valid_take hw hslots hfit hmiss

/-- A set of positions whose sum lies in the band. -/
structure Matches (g : Goal) (positions : List ℕ) : Prop where
  choice : g.pool.IsChoice positions
  inBand : g.isMatch (g.pool.sum positions) = true

theorem Matches.nonempty {positions : List ℕ} (h : g.Matches positions) :
    positions ≠ [] := by
  rintro rfl
  exact absurd (isMatch_iff.mp h.inBand).1 (not_le.mpr g.lowest_pos)

theorem TurnsTo.matches_of_found {t : Turn} {tails : Array ℤ}
    (ht : g.TurnsTo tails w t)
    (hw : w.Valid g) {taken : List ℕ} (h : t.move = .found taken) :
    g.Matches taken.reverse := by
  cases ht with
  | blocked => exact absurd h (retreat_ne_found w)
  | overshooting => exact absurd h (retreat_ne_found w)
  | cut => exact absurd h (retreat_ne_found w)
  | matched hslots _ hfit hmatch =>
      cases h
      have hnext := (firstFit_spec hw).1
      rw [List.reverse_cons]
      have hchoice :
          g.pool.IsChoice (w.taken.reverse ++ List.range' (g.firstFit w) 1) :=
        isChoice_append_range' hw hnext hfit hslots
      refine ⟨hchoice, ?_⟩
      rw [sum_extension_singleton hw]
      exact hmatch
  | descended => simp at h

end Goal

end ExactSpend
