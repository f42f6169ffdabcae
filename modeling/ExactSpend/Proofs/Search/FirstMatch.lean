import ExactSpend.Proofs.Search.Run
import ExactSpend.Proofs.Search.Sweep

/-!
# The first match

A search that is left to end finds a match if there is one, and the match a
search finds is the lexicographically first of all.  Jumps over candidates that
do not fit, cuts of branches that cannot reach the band and skips of equal
candidates never remove it.
-/

namespace ExactSpend
namespace Goal

variable {g : Goal} {w : Walk}

/-- No match lies before the frontier of a walk. -/
def PassedNoMatch (g : Goal) (w : Walk) : Prop :=
  g.pool.Swept (fun l => g.isMatch (g.pool.sum l) = false) w

theorem passedNoMatch_start (g : Goal) : g.PassedNoMatch (.start g.pool) := by
  refine Pool.swept_start (Bool.eq_false_iff.mpr fun h => ?_)
  have hlowest := (isMatch_iff.mp h).1
  have := g.lowest_pos
  simp only [Pool.sum_nil] at hlowest
  omega

theorem TurnsTo.covered_noMatch {t : Turn} (ht : g.TurnsTo g.pool.tails w t)
    (htarget : g.target ≤ signedMax) (hw : w.Valid g)
    (hpassed : g.PassedNoMatch w) :
    g.pool.Covered (fun l => g.isMatch (g.pool.sum l) = false) t.move := by
  refine ht.covered hw hpassed ?_ ?_ ?_ ?_
  · exact exchangeable_of_sum (R := fun s _ => g.isMatch s = false)
  · intro _ j tail _ hj hjump
    have hover := highest_lt_sum hw tail hj hjump
    exact Bool.eq_false_iff.mpr fun h =>
      absurd (isMatch_iff.mp h).2 (not_le.mpr hover)
  · intro _ _ hfit hreach j tail hl hj
    have hreach' := total_add_tailSum_lt hw htarget hfit hreach
    have hunder := sum_lt_lowest hw hreach' hl hj
    exact Bool.eq_false_iff.mpr fun h =>
      absurd (isMatch_iff.mp h).1 (not_le.mpr hunder)
  · intro _ _ _ hmiss
    rw [sum_extension_singleton hw]
    exact hmiss

/-- The first of all matches in lexicographic order. -/
def IsFirstMatch (g : Goal) (positions : List ℕ) : Prop :=
  g.Matches positions ∧ ∀ l, g.Matches l → positions ≤ l

/-- No match lies before the frontier of the walk at which a search ends. -/
theorem search_ends_passed (htarget : g.target ≤ signedMax) (limits : Limits)
    (signal : ℕ → Bool) :
    ∃ w record, (w.Valid g ∧ g.PassedNoMatch w) ∧
      g.EndsAt g.pool.tails w record (g.search limits signal) := by
  apply @search_ends g fun w _ => w.Valid g ∧ g.PassedNoMatch w
  · exact ⟨g.valid_start, g.passedNoMatch_start⟩
  · intro w _ t w' ⟨hw, hpassed⟩ ht hmove
    have hcovered := ht.covered_noMatch htarget hw hpassed
    rw [hmove] at hcovered
    exact ⟨ht.valid hw hmove, hcovered⟩

theorem search_matched_iff (g : Goal) (limits : Limits) (signal : ℕ → Bool) :
    (g.search limits signal).ending = .matched ↔
      (g.search limits signal).found.isSome = true := by
  obtain ⟨w, record, -, hends⟩ :=
    @search_ends g (fun _ _ => True) trivial
      (fun _ _ _ _ _ _ _ => trivial) limits signal
  generalize g.search limits signal = r at hends ⊢
  cases hends <;> simp

theorem search_found_of_matches (htarget : g.target ≤ signedMax)
    {limits : Limits} {signal : ℕ → Bool}
    (hbudget : (g.search limits signal).ending ≠ .budgetSpent)
    (hcancel : (g.search limits signal).ending ≠ .cancelled) {l : List ℕ}
    (hl : g.Matches l) :
    (g.search limits signal).found.isSome = true := by
  obtain ⟨w, record, ⟨hw, hpassed⟩, hends⟩ :=
    search_ends_passed htarget limits signal
  generalize g.search limits signal = r at hbudget hcancel hends ⊢
  cases hends with
  | budgetSpent => exact absurd rfl hbudget
  | cancelled => exact absurd rfl hcancel
  | matched => rfl
  | exhausted _ ht hmove =>
      have hcovered := ht.covered_noMatch htarget hw hpassed
      rw [hmove] at hcovered
      exact absurd hl.inBand (Bool.eq_false_iff.mp (hcovered l hl.choice))

theorem isFirstMatch_of_search_found (htarget : g.target ≤ signedMax)
    {limits : Limits} {signal : ℕ → Bool} {s : Selection}
    (hs : (g.search limits signal).found = some s) :
    s = Selection.ofPositions g.pool s.positions ∧
      g.IsFirstMatch s.positions := by
  obtain ⟨w, record, ⟨hw, hpassed⟩, hends⟩ :=
    search_ends_passed htarget limits signal
  generalize g.search limits signal = r at hs hends
  cases hends with
  | budgetSpent => exact absurd hs (by simp)
  | cancelled => exact absurd hs (by simp)
  | exhausted => exact absurd hs (by simp)
  | @matched _ t ht taken hmove =>
      have hcovered := ht.covered_noMatch htarget hw hpassed
      rw [hmove] at hcovered
      obtain rfl := Option.some.inj hs
      refine ⟨rfl, ht.matches_of_found hw hmove,
        fun l hl => not_lt.mp fun hlt => ?_⟩
      exact Bool.eq_false_iff.mp (hcovered l hl.choice hlt) hl.inBand

/-- A search that is stopped neither by its budget nor by the signal finds a
match exactly when there is one, and whenever a search finds a match it is the
first one. -/
theorem search_found_first (htarget : g.target ≤ signedMax) (limits : Limits)
    (signal : ℕ → Bool) :
    ((g.search limits signal).ending = .matched ↔
        (g.search limits signal).found.isSome = true) ∧
      ((g.search limits signal).ending ≠ .budgetSpent →
        (g.search limits signal).ending ≠ .cancelled →
        ((g.search limits signal).found.isSome = true ↔ ∃ l, g.Matches l)) ∧
      ∀ s, (g.search limits signal).found = some s →
        s = Selection.ofPositions g.pool s.positions ∧
          g.IsFirstMatch s.positions := by
  refine ⟨g.search_matched_iff limits signal, fun hbudget hcancel => ⟨?_, ?_⟩,
    fun s => isFirstMatch_of_search_found htarget⟩
  · intro hfound
    obtain ⟨s, hs⟩ := Option.isSome_iff_exists.mp hfound
    exact ⟨s.positions, (isFirstMatch_of_search_found htarget hs).2.1⟩
  · rintro ⟨l, hl⟩
    exact search_found_of_matches htarget hbudget hcancel hl

theorem search_found_first_of_five :
    (ofFiveCoins .more 19 (by decide)).target ≤ signedMax ∧
      (ofFiveCoins .more 19 (by decide)).IsFirstMatch [1, 3, 4] := by
  have htarget : (ofFiveCoins .more 19 (by decide)).target ≤ signedMax := by
    decide
  have hfound :
      ((ofFiveCoins .more 19 (by decide)).search ⟨100, 1⟩
        fun _ => false).found = some ⟨[1, 3, 4], [10, 5, 4], 19, 3⟩ := by decide
  exact ⟨htarget,
    ((search_found_first htarget ⟨100, 1⟩ fun _ => false).2.2 _ hfound).2⟩

end Goal
end ExactSpend
