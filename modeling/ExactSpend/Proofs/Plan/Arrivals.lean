import ExactSpend.Proofs.Plan.Order
import ExactSpend.Proofs.Plan.Yields
import Mathlib

/-!
# Arrivals in any order

Searches end in an order that nobody controls, some fail and some are cancelled.
What is harvested depends on none of this beyond the searches that are lost:
since all searches list the same coins alike, it does not matter which of them
comes first with a subset.
-/

namespace ExactSpend

/-- A search that failed or was cancelled. -/
def Arrival.IsLost (a : Arrival) : Prop :=
  ∀ report, a.report = some report → report.ending = .cancelled

/-- The second arrival is the first one, or that of the same search when it is
lost. -/
def Arrival.Degrades (a a' : Arrival) : Prop :=
  a' = a ∨ a'.task = a.task ∧ a'.IsLost

theorem Arrival.IsLost.not_selects {a : Arrival} (h : a.IsLost)
    {subset : List ℕ} :
    ¬a.Selects subset := by
  rintro ⟨report, s, hreport, hcancelled, -⟩
  exact hcancelled (h report hreport)

theorem Arrival.mem_of_degrades {arrivals arrivals' : List Arrival}
    (h : List.Forall₂ Arrival.Degrades arrivals arrivals') {a : Arrival}
    (ha : a ∈ arrivals')
    {subset : List ℕ} (hs : a.Selects subset) : a ∈ arrivals := by
  induction h with
  | nil => cases ha
  | cons hfirst _ ih =>
      rcases List.mem_cons.mp ha with rfl | ha
      · rcases hfirst with rfl | ⟨-, hlost⟩
        · exact List.mem_cons_self
        · exact absurd hs hlost.not_selects
      · exact List.mem_cons_of_mem _ (ih ha)

namespace Request

variable {r : Request}

theorem pairwise_of_selects {a : Arrival} (ha : a.Answers r.plan.tasks)
    {subset : List ℕ} (h : a.Selects subset) : subset.Pairwise r.Precedes := by
  obtain ⟨positions, rfl, hserves⟩ := ha.exists_positions h
  exact pairwise_coinsAt ha.mem hserves.choice

/-- Where all subsets are listed alike, the harvest is what the searches
select. -/
theorem mem_harvest_iff {arrivals : List Arrival}
    (hlisted : ∀ a ∈ arrivals, ∀ subset, a.Selects subset →
      subset.Pairwise r.Precedes)
    {subset : List ℕ} : subset ∈ harvest arrivals ↔
    ∃ a ∈ arrivals, a.Selects subset := by
  constructor
  · intro h
    obtain ⟨a, ha, hsubset⟩ := exists_of_mem_gather h
    exact ⟨a, ha, Arrival.subset?_eq_some_iff.mp hsubset⟩
  · rintro ⟨a, ha, hselects⟩
    obtain ⟨kept, hkept, hperm⟩ :=
      exists_harvest_perm ha (Arrival.subset?_eq_some_iff.mpr hselects)
    -- The subset kept has the same coins, so it is the same list.
    obtain ⟨b, hb, hfirst⟩ := exists_of_mem_gather hkept
    have hlistedKept :=
      hlisted b hb kept (Arrival.subset?_eq_some_iff.mp hfirst)
    rwa [← eq_of_perm_of_precedes hlistedKept
      (hlisted a ha subset hselects) hperm]

theorem nodup_harvest (arrivals : List Arrival) : (harvest arrivals).Nodup :=
  pairwise_gather.imp fun hne heq => hne (List.Perm.of_eq heq)

/-- No set of coins is harvested twice, and the subsets harvested, each with its
coins in order, are those that the searches select.  The order of arrival does
not matter, and a search that is lost takes along only what no other search
selects. -/
theorem harvest_any_order {arrivals : List Arrival}
    (hanswers : ∀ a ∈ arrivals, a.Answers r.plan.tasks) :
    (harvest arrivals).Pairwise (fun s t => ¬s.Perm t) ∧
      (∀ subset, subset ∈ harvest arrivals ↔ ∃ a ∈ arrivals, a.Selects subset) ∧
      (∀ arrivals', arrivals'.Perm arrivals →
        (harvest arrivals').Perm (harvest arrivals)) ∧
      ∀ arrivals', List.Forall₂ Arrival.Degrades arrivals arrivals' →
        ∀ subset, subset ∈ harvest arrivals' ↔
          subset ∈ harvest arrivals ∧ ∃ a ∈ arrivals', a.Selects subset := by
  have hlisted : ∀ a ∈ arrivals, ∀ subset, a.Selects subset →
      subset.Pairwise r.Precedes :=
    fun a ha subset hselects => pairwise_of_selects (hanswers a ha) hselects
  refine ⟨pairwise_gather, fun subset => mem_harvest_iff hlisted, ?_, ?_⟩
  · intro arrivals' hperm
    rw [List.perm_ext_iff_of_nodup (nodup_harvest _) (nodup_harvest _)]
    intro subset
    have hlisted' := fun a ha => hlisted a (hperm.mem_iff.mp ha)
    rw [mem_harvest_iff hlisted', mem_harvest_iff hlisted]
    simp only [hperm.mem_iff]
  · intro arrivals' hdegrades subset
    have hlisted' : ∀ a ∈ arrivals', ∀ subset, a.Selects subset →
        subset.Pairwise r.Precedes :=
      fun a ha subset hselects =>
        hlisted a (Arrival.mem_of_degrades hdegrades ha hselects)
          subset hselects
    rw [mem_harvest_iff hlisted', mem_harvest_iff hlisted]
    constructor
    · rintro ⟨a, ha, hselects⟩
      exact ⟨⟨a, Arrival.mem_of_degrades hdegrades ha hselects, hselects⟩,
        a, ha, hselects⟩
    · exact fun h => h.2

/-- The arrivals when every search ends. -/
def ofFourCoinsArrivals : List Arrival :=
  ({} : Disturbance).arrivals ofFourCoins.settings.limits ofFourCoins.plan.tasks

theorem harvest_ofFourCoins :
    harvest ofFourCoinsArrivals = [[0, 2], [1, 3], [1, 0]] := by
  cbv

theorem harvest_of_four_coins_reversed :
    (∀ a ∈ ofFourCoinsArrivals, a.Answers ofFourCoins.plan.tasks) ∧
      (harvest ofFourCoinsArrivals.reverse).Perm [[0, 2], [1, 3], [1, 0]] := by
  have hanswers :=
    Disturbance.answers {} ofFourCoins.settings.limits ofFourCoins.plan.tasks
  have hreversed :=
    (harvest_any_order hanswers).2.2.1 _ ofFourCoinsArrivals.reverse_perm
  exact ⟨hanswers, harvest_ofFourCoins ▸ hreversed⟩

end Request
end ExactSpend
