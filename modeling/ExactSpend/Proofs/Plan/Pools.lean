import ExactSpend.Plan
import ExactSpend.Proofs.Ranking
import ExactSpend.Proofs.Search.Positions
import Mathlib.Data.List.Nodup

/-!
# Pools of a request

The pool of a group holds its usable coins in descending order of what they are
worth.  The sources of a search tell which coin stands at which position, so
sets of positions and sets of usable coins correspond to each other and are
worth the same.
-/

namespace ExactSpend
namespace Pool

theorem ofCandidates_spec {target : ℤ} {candidates : List Candidate}
    {inputLimit : ℕ} {p : Pool}
    (h : ofCandidates target candidates inputLimit = .ok p) :
    p.target = target ∧ p.candidates = candidates.toArray ∧
      p.inputLimit = inputLimit := by
  unfold ofCandidates at h
  split at h
  · cases h
  · cases h
    exact ⟨rfl, rfl, rfl⟩

theorem exists_ofCandidates {target : ℤ} {candidates : List Candidate}
    {inputLimit : ℕ} (htarget : 0 < target) (hlimit : 0 < inputLimit)
    (hpos : ∀ c ∈ candidates, 0 < c.value)
    (hdesc : candidates.Pairwise fun a b => b.value ≤ a.value) :
    ∃ p, ofCandidates target candidates inputLimit = .ok p := by
  have hnone := fault?_eq_none_iff.mpr ⟨htarget, hlimit, hpos, hdesc⟩
  cases h : ofCandidates target candidates inputLimit with
  | ok p => exact ⟨p, rfl⟩
  | error fault =>
      rw [ofCandidates_eq_error_iff, hnone] at h
      cases h

theorem ranked_perm (candidates : List Candidate) :
    (ranked candidates).Perm candidates.zipIdx :=
  List.mergeSort_perm _ _

theorem ranked_descending (candidates : List Candidate) :
    ((ranked candidates).map (·.1)).Pairwise fun a b => b.value ≤ a.value := by
  rw [List.pairwise_map]
  exact pairwise_ranking (fun e : Candidate × ℕ => e.1.value) candidates.zipIdx

/-- Candidates of one value are ranked as they came. -/
theorem ranked_ties (candidates : List Candidate) :
    (ranked candidates).Pairwise fun a b =>
      b.1.value < a.1.value ∨ a.1.value = b.1.value ∧ a.2 < b.2 := by
  apply pairwise_ranking_ties fun e : Candidate × ℕ => e.1.value
  rw [← List.pairwise_map (f := Prod.snd) (R := (· < ·)), List.zipIdx_map_snd]
  exact List.pairwise_lt_range'

/-- The positions at which some coins stand, in ascending order. -/
def positionsOf (p : Pool) (sources : Array ℕ) (indices : List ℕ) : List ℕ :=
  (List.range p.size).filter fun k => sources.getD k 0 ∈ indices

theorem mem_positionsOf {p : Pool} {sources : Array ℕ}
    {indices : List ℕ} {k : ℕ} :
    k ∈ p.positionsOf sources indices ↔
      k < p.size ∧ sources.getD k 0 ∈ indices := by
  rw [positionsOf, List.mem_filter, List.mem_range, decide_eq_true_iff]

end Pool

namespace Request

variable {r : Request}

/-- What the coin at an index is worth; nothing beyond the last coin. -/
def worthAt (r : Request) (i : ℕ) : ℤ :=
  (r.coins[i]?.map (·.effectiveValue r.rate)).getD 0

theorem worthAt_eq {i : ℕ} {coin : Coin} (h : r.coins[i]? = some coin) :
    r.worthAt i = coin.effectiveValue r.rate := by
  rw [worthAt, h]
  rfl

theorem lt_size_of_worthAt_pos {i : ℕ} (h : 0 < r.worthAt i) :
    i < r.coins.size := by
  by_contra hout
  rw [worthAt, Array.getElem?_eq_none (not_lt.mp hout)] at h
  exact absurd h (lt_irrefl 0)

theorem exists_coin_of_worthAt_pos {i : ℕ} (h : 0 < r.worthAt i) :
    ∃ coin, r.coins[i]? = some coin ∧ 0 < coin.effectiveValue r.rate := by
  have hcoin := Array.getElem?_eq_getElem (lt_size_of_worthAt_pos h)
  exact ⟨_, hcoin, worthAt_eq hcoin ▸ h⟩

/-! ## Usable coins -/

theorem map_usable (r : Request) (members : List ℕ) :
    (r.usable members).map (·.2) = members.filter fun i => 0 < r.worthAt i := by
  rw [usable, List.map_filterMap, ← List.filterMap_eq_filter]
  apply List.filterMap_congr
  intro i _
  cases hcoin : r.coins[i]? with
  | none => simp [worthAt, hcoin, Option.guard]
  | some coin =>
      have hworth := worthAt_eq hcoin
      by_cases hpos : 0 < coin.effectiveValue r.rate
      · simp [hpos, hworth, Option.guard]
      · simp [hpos, hworth, Option.guard]

/-- A usable coin counts with what it is worth and what it costs to spend. -/
theorem coin_of_mem_usable {members : List ℕ} {entry : Candidate × ℕ}
    (h : entry ∈ r.usable members) :
    ∃ coin, r.coins[entry.2]? = some coin ∧ 0 < coin.effectiveValue r.rate ∧
      entry.1 = ⟨coin.effectiveValue r.rate,
        Signed.ofCount (coin.inputCost r.rate)⟩ := by
  obtain ⟨i, -, hi⟩ := List.mem_filterMap.mp h
  obtain ⟨coin, hcoin, hentry⟩ := Option.bind_eq_some_iff.mp hi
  by_cases hpos : 0 < coin.effectiveValue r.rate
  · rw [if_pos hpos] at hentry
    obtain rfl := Option.some.inj hentry
    exact ⟨coin, hcoin, hpos, rfl⟩
  · rw [if_neg hpos] at hentry
    exact absurd hentry nofun

theorem value_of_mem_usable {members : List ℕ} {entry : Candidate × ℕ}
    (h : entry ∈ r.usable members) :
    entry.1.value = r.worthAt entry.2 ∧ 0 < r.worthAt entry.2 := by
  obtain ⟨coin, hcoin, hpos, hentry⟩ := coin_of_mem_usable h
  rw [hentry, worthAt_eq hcoin]
  exact ⟨rfl, hpos⟩

/-! ## Sources -/

/-- A pool over the usable coins among some members, and for every position the
index of the coin that stands there. -/
structure HasPool (r : Request) (members : List ℕ) (p : Pool)
    (sources : Array ℕ) : Prop where
  target_eq : p.target = r.target
  inputLimit_eq : p.inputLimit = r.inputLimit
  size_eq : sources.size = p.size
  nodup : sources.toList.Nodup
  mem_iff : ∀ i, i ∈ sources.toList ↔ i ∈ members ∧ 0 < r.worthAt i
  value_eq : ∀ k < p.size, p.value k = r.worthAt (sources.getD k 0)

theorem map_zipIdx_getD {α β γ : Type*} (f : α → β) (g : α → γ) (d : γ)
    (entries : List α) :
    ((entries.map f).zipIdx.map fun e =>
      (e.1, (entries.map g).toArray.getD e.2 d)) =
      entries.map fun e => (f e, g e) := by
  apply List.ext_getElem
  · simp
  · intro k hk hk'
    have hlt : k < entries.length := by simpa using hk'
    simp [hlt]

theorem pool_eq (r : Request) (members : List ℕ) :
    r.pool members =
      (Pool.ofCandidates r.target
        ((Pool.ranked ((r.usable members).map (·.1))).map (·.1))
        r.inputLimit).map fun p =>
          (p, (((Pool.ranked ((r.usable members).map (·.1))).map (·.2)).map
            (((r.usable members).map (·.2)).toArray.getD · 0)).toArray) := by
  rw [pool, Pool.sorted]
  cases Pool.ofCandidates r.target
      ((Pool.ranked ((r.usable members).map (·.1))).map (·.1)) r.inputLimit with
  | error fault => rfl
  | ok p => rfl

/-- The usable coins of a group in the order of its pool. -/
def listing (r : Request) (members : List ℕ) : List (Candidate × ℕ) :=
  (Pool.ranked ((r.usable members).map (·.1))).map fun e =>
    (e.1, ((r.usable members).map (·.2)).toArray.getD e.2 0)

theorem listing_perm (r : Request) (members : List ℕ) :
    (r.listing members).Perm (r.usable members) := by
  have hperm := (Pool.ranked_perm ((r.usable members).map (·.1))).map fun e =>
    (e.1, ((r.usable members).map (·.2)).toArray.getD e.2 0)
  rw [map_zipIdx_getD, List.map_id'] at hperm
  exact hperm

/-- Coins of one value are listed as they stand in an ascending group. -/
theorem listing_ties {members : List ℕ} (h : members.Pairwise (· < ·)) :
    (r.listing members).Pairwise fun a b =>
      b.1.value < a.1.value ∨ a.1.value = b.1.value ∧ a.2 < b.2 := by
  have hindices : ((r.usable members).map (·.2)).Pairwise (· < ·) := by
    rw [map_usable]
    exact h.filter _
  rw [listing, List.pairwise_map]
  apply (Pool.ranked_ties _).imp_of_mem
  intro a b _ hb hab
  refine hab.imp_right fun ⟨heq, hlt⟩ => ⟨heq, ?_⟩
  have hb' : b.2 < (r.usable members).length := by
    simpa using List.snd_lt_of_mem_zipIdx ((Pool.ranked_perm _).mem_iff.mp hb)
  have ha' : a.2 < (r.usable members).length := hlt.trans hb'
  simpa [ha', hb'] using List.pairwise_iff_getElem.mp hindices a.2 b.2
    (by simpa) (by simpa) hlt

/-- The pool and its sources are the usable coins, listed alike. -/
theorem pool_listing {members : List ℕ} {p : Pool} {sources : Array ℕ}
    (h : r.pool members = .ok (p, sources)) :
    p.candidates.toList = (r.listing members).map (·.1) ∧
      sources.toList = (r.listing members).map (·.2) ∧
      p.target = r.target ∧ p.inputLimit = r.inputLimit := by
  rw [pool_eq] at h
  cases hp : Pool.ofCandidates r.target
      ((Pool.ranked ((r.usable members).map (·.1))).map (·.1)) r.inputLimit with
  | error fault =>
      rw [hp] at h
      cases h
  | ok p' =>
      rw [hp] at h
      cases h
      obtain ⟨htarget, hcandidates, hlimit⟩ := Pool.ofCandidates_spec hp
      refine ⟨?_, ?_, htarget, hlimit⟩
      · rw [hcandidates, listing, List.map_map]
        rfl
      · rw [listing, List.map_map, List.map_map]
        rfl

/-- The candidate and the source at a position are those of one usable coin. -/
theorem mem_usable_of_pool {members : List ℕ} {p : Pool} {sources : Array ℕ}
    (h : r.pool members = .ok (p, sources)) {k : ℕ} (hk : k < p.size) :
    (p.candidate k, sources.getD k 0) ∈ r.usable members := by
  obtain ⟨hcandidates, hsources, -⟩ := pool_listing h
  have hpool : p.candidates = ((r.listing members).map (·.1)).toArray := by
    rw [← hcandidates]
  have hindices : sources = ((r.listing members).map (·.2)).toArray := by
    rw [← hsources]
  have hk' : k < (r.listing members).length := by
    rw [Pool.size, hpool] at hk
    simpa using hk
  have hcandidate : p.candidate k = (r.listing members)[k].1 := by
    simp [Pool.candidate, hpool, hk']
  have hsource : sources.getD k 0 = (r.listing members)[k].2 := by
    simp [hindices, hk']
  rw [hcandidate, hsource]
  exact (r.listing_perm members).mem_iff.mp (List.getElem_mem hk')

theorem hasPool_of_pool {members : List ℕ} (hnodup : members.Nodup) {p : Pool}
    {sources : Array ℕ} (h : r.pool members = .ok (p, sources)) :
    r.HasPool members p sources := by
  obtain ⟨hcandidates, hsources, htarget, hlimit⟩ := pool_listing h
  have hperm := r.listing_perm members
  have husable :
      sources.toList.Perm (members.filter fun i => 0 < r.worthAt i) := by
    rw [hsources, ← map_usable]
    exact hperm.map _
  have hlength : sources.toList.length = p.candidates.toList.length := by
    rw [hcandidates, hsources, List.length_map, List.length_map]
  refine ⟨htarget, hlimit, hlength, ?_, ?_, ?_⟩
  · exact husable.nodup_iff.mpr (hnodup.filter _)
  · intro i
    rw [husable.mem_iff, List.mem_filter, decide_eq_true_iff]
  · exact fun k hk => (value_of_mem_usable (mem_usable_of_pool h hk)).1

theorem exists_pool (members : List ℕ) (htarget : 0 < r.target)
    (hlimit : 0 < r.inputLimit) :
    ∃ p sources, r.pool members = .ok (p, sources) := by
  obtain ⟨p, hp⟩ : ∃ p, Pool.ofCandidates r.target
      ((Pool.ranked ((r.usable members).map (·.1))).map (·.1))
        r.inputLimit = .ok p := by
    apply Pool.exists_ofCandidates htarget hlimit
    · intro c hc
      have hmem : c ∈ (r.usable members).map (·.1) := by
        have hperm :=
          (Pool.ranked_perm ((r.usable members).map (·.1))).map (·.1)
        rw [List.zipIdx_map_fst] at hperm
        exact hperm.mem_iff.mp hc
      obtain ⟨entry, hentry, rfl⟩ := List.mem_map.mp hmem
      obtain ⟨hvalue, hpos⟩ := value_of_mem_usable hentry
      exact hvalue ▸ hpos
    · exact Pool.ranked_descending _
  rw [pool_eq, hp]
  exact ⟨_, _, rfl⟩

/-! ## Sets of coins and sets of positions -/

/-- A set of coins that the request may spend. -/
structure Affords (r : Request) (indices : List ℕ) : Prop where
  nodup : indices.Nodup
  worth_pos : ∀ i ∈ indices, 0 < r.worthAt i
  length_le : indices.length ≤ r.inputLimit

/-- What some coins are worth together. -/
def worth (r : Request) (indices : List ℕ) : ℤ :=
  Signed.total (indices.map r.worthAt)

theorem worth_perm {xs ys : List ℕ} (h : xs.Perm ys) :
    r.worth xs = r.worth ys :=
  Signed.total_perm (h.map r.worthAt)

namespace HasPool

variable {members : List ℕ} {p : Pool} {sources : Array ℕ}

theorem source_mem (h : r.HasPool members p sources) {k : ℕ} (hk : k < p.size) :
    sources.getD k 0 ∈ sources.toList := by
  have hk' : k < sources.size := h.size_eq ▸ hk
  simp [hk']

theorem source_inj (h : r.HasPool members p sources) {j k : ℕ} (hj : j < p.size)
    (hk : k < p.size) (heq : sources.getD j 0 = sources.getD k 0) : j = k := by
  have hj' : j < sources.size := h.size_eq ▸ hj
  have hk' : k < sources.size := h.size_eq ▸ hk
  have hget : sources.toList[j] = sources.toList[k] := by
    simpa [Array.getD, hj', hk'] using heq
  exact h.nodup.getElem_inj_iff.mp hget

theorem sum_eq (h : r.HasPool members p sources) {l : List ℕ}
    (hl : ∀ k ∈ l, k < p.size) :
    p.sum l = r.worth (l.map (sources.getD · 0)) := by
  rw [Pool.sum, worth, List.map_map]
  congr 1
  apply List.map_congr_left
  intro k hk
  exact h.value_eq k (hl k hk)

theorem nodup_map_source (h : r.HasPool members p sources) {l : List ℕ}
    (hl : l.Nodup)
    (hlt : ∀ k ∈ l, k < p.size) : (l.map (sources.getD · 0)).Nodup :=
  hl.map_on fun j hj k hk heq => h.source_inj (hlt j hj) (hlt k hk) heq

theorem affords (h : r.HasPool members p sources) {l : List ℕ}
    (hl : p.IsChoice l) :
    r.Affords (l.map (sources.getD · 0)) := by
  refine ⟨h.nodup_map_source (hl.increasing.imp ne_of_lt) hl.lt_size, ?_, ?_⟩
  · intro i hi
    obtain ⟨k, hk, rfl⟩ := List.mem_map.mp hi
    exact ((h.mem_iff _).mp (h.source_mem (hl.lt_size k hk))).2
  · rw [List.length_map, ← h.inputLimit_eq]
    exact hl.length_le

theorem map_source_perm (h : r.HasPool members p sources) {indices : List ℕ}
    (hindices : r.Affords indices) (hmem : ∀ i ∈ indices, i ∈ members) :
    ((p.positionsOf sources indices).map (sources.getD · 0)).Perm indices := by
  have hlt : ∀ k ∈ p.positionsOf sources indices, k < p.size :=
    fun k hk => (Pool.mem_positionsOf.mp hk).1
  have hnodup : (p.positionsOf sources indices).Nodup :=
    List.nodup_range.filter _
  rw [List.perm_ext_iff_of_nodup (h.nodup_map_source hnodup hlt) hindices.nodup]
  intro i
  constructor
  · intro hi
    obtain ⟨k, hk, rfl⟩ := List.mem_map.mp hi
    exact (Pool.mem_positionsOf.mp hk).2
  · intro hi
    have hsource := (h.mem_iff i).mpr ⟨hmem i hi, hindices.worth_pos i hi⟩
    obtain ⟨k, hk, rfl⟩ := List.mem_iff_getElem.mp hsource
    have hk' : k < sources.size := hk
    have hget : sources.getD k 0 = sources.toList[k] := by simp [hk']
    exact List.mem_map.mpr ⟨k,
      Pool.mem_positionsOf.mpr ⟨h.size_eq ▸ hk', hget ▸ hi⟩, hget⟩

/-- Every set of usable members stands somewhere in the pool. -/
theorem exists_isChoice (h : r.HasPool members p sources) {indices : List ℕ}
    (hindices : r.Affords indices) (hmem : ∀ i ∈ indices, i ∈ members) :
    ∃ l, p.IsChoice l ∧ p.sum l = r.worth indices := by
  have hperm := h.map_source_perm hindices hmem
  have hlt : ∀ k ∈ p.positionsOf sources indices, k < p.size :=
    fun k hk => (Pool.mem_positionsOf.mp hk).1
  refine ⟨p.positionsOf sources indices,
    ⟨List.pairwise_lt_range.filter _, hlt, ?_⟩, ?_⟩
  · have hlength := hperm.length_eq
    rw [List.length_map] at hlength
    rw [hlength, h.inputLimit_eq]
    exact hindices.length_le
  · rw [h.sum_eq hlt, worth_perm hperm]

end HasPool
end Request
end ExactSpend
