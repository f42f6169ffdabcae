import ExactSpend.Harvest
import ExactSpend.Proofs.Plan.Tasks

/-!
# The order of coins within a subset

Searches over a script and searches over all coins count positions differently,
but they all list coins in one order: what is worth more comes first, and of
coins worth the same the earlier one.  So searches that pick the same coins
also list them alike.
-/

namespace ExactSpend
namespace Request

variable {r : Request}

/-- The coin at `i` is listed before the coin at `j`. -/
def Precedes (r : Request) (i j : ℕ) : Prop :=
  r.worthAt j < r.worthAt i ∨ r.worthAt i = r.worthAt j ∧ i < j

theorem Precedes.asymm {i j : ℕ} (hij : r.Precedes i j) : ¬r.Precedes j i := by
  unfold Precedes at hij ⊢
  omega

/-- The same coins are listed alike. -/
theorem eq_of_perm_of_precedes {xs ys : List ℕ} (hxs : xs.Pairwise r.Precedes)
    (hys : ys.Pairwise r.Precedes) (h : xs.Perm ys) : xs = ys :=
  h.eq_of_pairwise (fun _ _ _ _ hij hji => absurd hji hij.asymm) hxs hys

theorem precedes_sources {members : List ℕ}
    (hmembers : members.Pairwise (· < ·)) {p : Pool}
    {sources : Array ℕ} (h : r.pool members = .ok (p, sources)) :
    sources.toList.Pairwise r.Precedes := by
  rw [(pool_listing h).2.1, List.pairwise_map]
  apply (listing_ties hmembers).imp_of_mem
  intro a b ha hb hab
  obtain ⟨hvalue, -⟩ :=
    value_of_mem_usable ((r.listing_perm members).mem_iff.mp ha)
  obtain ⟨hvalue', -⟩ :=
    value_of_mem_usable ((r.listing_perm members).mem_iff.mp hb)
  rwa [hvalue, hvalue'] at hab

/-- The positions of a search list its coins in this order. -/
theorem precedes_of_lt {t : Task} (ht : t ∈ r.plan.tasks)
    {j k : ℕ} (hjk : j < k) (hk : k < t.goal.pool.size) :
    r.Precedes (t.sources.getD j 0) (t.sources.getD k 0) := by
  have hsources :=
    precedes_sources (r.increasing_groupMembers t.group) (task_of_mem_plan ht).1
  have hk' : k < t.sources.size := (hasPool_of_mem_plan ht).size_eq ▸ hk
  have hj' : j < t.sources.size := hjk.trans hk'
  simpa [hj', hk'] using List.pairwise_iff_getElem.mp hsources j k hj' hk' hjk

/-- What a search of a plan picks it lists in this order. -/
theorem pairwise_coinsAt {t : Task} (ht : t ∈ r.plan.tasks) {positions : List ℕ}
    (h : t.goal.pool.IsChoice positions) :
    (t.coinsAt positions).Pairwise r.Precedes := by
  rw [Task.coinsAt, List.pairwise_map]
  apply h.increasing.imp_of_mem
  exact fun _ hj hij => precedes_of_lt ht hij (h.lt_size _ hj)

end Request
end ExactSpend
