import Mathlib.Data.List.Lex

/-!
# The lexicographic order of position lists

A depth-first search meets lists of positions in lexicographic order, a list
before its extensions.  Whatever lies between two extensions of one list is
an extension of it too, so a stretch of the search is described by what may
follow the positions taken so far.
-/

namespace ExactSpend

/-- A list between two extensions of `front` extends `front`, and what follows
there lies between what follows in the two. -/
theorem exists_append_of_between {front l : List ℕ} :
    ∀ {a b : List ℕ}, front ++ a ≤ l → l < front ++ b →
      ∃ rest, l = front ++ rest ∧ a ≤ rest ∧ rest < b := by
  induction front generalizing l with
  | nil =>
      intro a b hle hlt
      exact ⟨l, rfl, hle, hlt⟩
  | cons i front ih =>
      intro a b hle hlt
      cases l with
      | nil => exact absurd (List.nil_lt_cons i (front ++ a)) (not_lt.mpr hle)
      | cons j tail =>
          have hle' : ¬(j < i ∨ j = i ∧ tail < front ++ a) := by
            rw [← List.cons_lt_cons_iff]
            exact not_lt.mpr hle
          rcases List.cons_lt_cons_iff.mp hlt with hji | ⟨rfl, hlt'⟩
          · exact absurd (Or.inl hji) hle'
          · have htail : front ++ a ≤ tail :=
              not_lt.mp fun h => hle' (Or.inr ⟨rfl, h⟩)
            obtain ⟨rest, rfl, ha, hb⟩ := ih htail hlt'
            exact ⟨rest, rfl, ha, hb⟩

theorem lt_singleton_cases {rest : List ℕ} {k : ℕ} (h : rest < [k]) :
    rest = [] ∨ ∃ m tail, rest = m :: tail ∧ m < k := by
  cases rest with
  | nil => exact Or.inl rfl
  | cons m tail =>
      rcases List.cons_lt_cons_iff.mp h with hm | ⟨-, htail⟩
      · exact Or.inr ⟨m, tail, rfl, hm⟩
      · exact absurd htail (List.not_lt_nil tail)

theorem cons_le_cases {rest tail : List ℕ} {k : ℕ} (h : k :: tail ≤ rest) :
    ∃ m tail', rest = m :: tail' ∧ (k < m ∨ k = m ∧ tail ≤ tail') := by
  cases rest with
  | nil => exact absurd (List.nil_lt_cons k tail) (not_lt.mpr h)
  | cons m tail' =>
      have hnot : ¬(m < k ∨ m = k ∧ tail' < tail) := by
        rw [← List.cons_lt_cons_iff]
        exact not_lt.mpr h
      refine ⟨m, tail', rfl, ?_⟩
      rcases lt_trichotomy k m with hlt | heq | hgt
      · exact Or.inl hlt
      · exact Or.inr ⟨heq, not_lt.mp fun h' => hnot (Or.inr ⟨heq.symm, h'⟩)⟩
      · exact absurd (Or.inl hgt) hnot

end ExactSpend
