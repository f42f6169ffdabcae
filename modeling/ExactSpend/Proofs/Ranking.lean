import Mathlib.Algebra.Order.Ring.Int
import Mathlib.Data.List.Basic

/-!
# Rankings

Candidates and coins are ranked by their value, the largest first.  Entries of
one value keep the order in which they came, so an order of the entries that a
ranking starts from breaks its ties.
-/

namespace ExactSpend

variable {α : Type*} (value : α → ℤ)

theorem ranking_trans (a b c : α) (hab : decide (value b ≤ value a) = true)
    (hbc : decide (value c ≤ value b) = true) :
    decide (value c ≤ value a) = true :=
  decide_eq_true ((of_decide_eq_true hbc).trans (of_decide_eq_true hab))

theorem ranking_total (a b : α) :
    (decide (value b ≤ value a) || decide (value a ≤ value b)) = true := by
  rw [Bool.or_eq_true]
  exact (le_total (value b) (value a)).imp decide_eq_true decide_eq_true

theorem pairwise_ranking (entries : List α) :
    (entries.mergeSort fun a b =>
      decide (value b ≤ value a)).Pairwise fun a b =>
      value b ≤ value a :=
  (List.pairwise_mergeSort (ranking_trans value)
    (ranking_total value) entries).imp of_decide_eq_true

/-- Entries of one value stand in a ranking as they stood before. -/
theorem filter_ranking (entries : List α) (v : ℤ) :
    ((entries.mergeSort fun a b => decide (value b ≤ value a)).filter fun a =>
      value a = v) = entries.filter fun a => value a = v := by
  have hequal : (entries.filter fun a => value a = v).Pairwise fun a b =>
      decide (value b ≤ value a) = true := by
    apply List.pairwise_of_forall_mem_list
    intro a ha b hb
    have hav : value a = v := of_decide_eq_true (List.mem_filter.mp ha).2
    have hbv : value b = v := of_decide_eq_true (List.mem_filter.mp hb).2
    exact decide_eq_true (le_of_eq (hbv.trans hav.symm))
  have hsub :=
    (List.sublist_mergeSort (ranking_trans value) (ranking_total value) hequal
      List.filter_sublist).filter fun a => value a = v
  rw [List.filter_filter] at hsub
  simp only [Bool.and_self] at hsub
  refine (hsub.eq_of_length ?_).symm
  exact ((List.mergeSort_perm entries _).filter _).length_eq.symm

/-- An order of the entries that a ranking starts from breaks its ties. -/
theorem pairwise_ranking_ties {R : α → α → Prop} {entries : List α}
    (h : entries.Pairwise R) :
    (entries.mergeSort fun a b =>
      decide (value b ≤ value a)).Pairwise fun a b =>
      value b < value a ∨ value a = value b ∧ R a b := by
  rw [List.pairwise_iff_forall_sublist]
  intro a b hab
  have hle :=
    List.pairwise_iff_forall_sublist.mp (pairwise_ranking value entries) hab
  rcases lt_or_eq_of_le hle with hlt | heq
  · exact Or.inl hlt
  · refine Or.inr ⟨heq.symm, ?_⟩
    have hsub := hab.filter fun c => value c = value a
    rw [filter_ranking, List.filter_eq_self.mpr (by simpa using heq)] at hsub
    exact List.pairwise_iff_forall_sublist.mp h (hsub.trans List.filter_sublist)

end ExactSpend
