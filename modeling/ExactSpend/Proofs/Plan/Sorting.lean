import ExactSpend.Proofs.Plan.Pools

/-!
# Candidates in any order

Candidates may come in any order: sorting puts them into the order that a pool
requires and keeps, for each position, the index of the candidate that stands
there.  In that order the candidates without a positive value stand behind all
others, so the fault of data that make no pool can be told from the data as they
came: its position counts the positive candidates, its value is the largest of
the rest.
-/

namespace ExactSpend
namespace Pool

variable {target : ℤ} {candidates : List Candidate} {inputLimit : ℕ}

/-! ## The order of the candidates -/

/-- A pool holds some candidates, in descending order of value and those of one
value as they came, and `order` tells which candidate each position holds. -/
structure Ranks (candidates : List Candidate) (p : Pool)
    (order : List ℕ) : Prop where
  order_perm : order.Perm (List.range candidates.length)
  candidates_eq : p.candidates.toList.map some = order.map (candidates[·]?)
  ties : ∀ i j, i < j → j < p.size →
    p.value j < p.value i ∨ p.value i = p.value j ∧
      order.getD i 0 < order.getD j 0

theorem Ranks.mem_candidates {p : Pool} {order : List ℕ}
    (h : Ranks candidates p order)
    {c : Candidate} (hc : c ∈ candidates) : c ∈ p.candidates.toList := by
  obtain ⟨i, hi, rfl⟩ := List.mem_iff_getElem.mp hc
  have horder : i ∈ order := h.order_perm.mem_iff.mpr (List.mem_range.mpr hi)
  have hmem : some candidates[i] ∈ order.map (candidates[·]?) :=
    List.mem_map.mpr ⟨i, horder, List.getElem?_eq_getElem hi⟩
  rw [← h.candidates_eq] at hmem
  exact List.mem_map_of_injective (Option.some_injective _) |>.mp hmem

theorem getElem?_of_mem_ranked {entry : Candidate × ℕ}
    (h : entry ∈ ranked candidates) :
    candidates[entry.2]? = some entry.1 :=
  List.mk_mem_zipIdx_iff_getElem?.mp ((ranked_perm candidates).mem_iff.mp h)

theorem map_fst_ranked_perm (candidates : List Candidate) :
    ((ranked candidates).map (·.1)).Perm candidates := by
  have hperm := (ranked_perm candidates).map (·.1)
  rwa [List.zipIdx_map_fst] at hperm

theorem map_snd_ranked_perm (candidates : List Candidate) :
    ((ranked candidates).map (·.2)).Perm (List.range candidates.length) := by
  have hperm := (ranked_perm candidates).map (·.2)
  rwa [List.zipIdx_map_snd, ← List.range_eq_range'] at hperm

theorem ranks_ranked {p : Pool}
    (h : p.candidates = ((ranked candidates).map (·.1)).toArray) :
    Ranks candidates p ((ranked candidates).map (·.2)) := by
  refine ⟨map_snd_ranked_perm candidates, ?_, fun i j hij hj => ?_⟩
  · rw [h, List.map_map, List.map_map]
    apply List.map_congr_left
    exact fun entry hentry => (getElem?_of_mem_ranked hentry).symm
  · have hj' : j < (ranked candidates).length := by
      rw [size, h] at hj
      simpa using hj
    have hi' : i < (ranked candidates).length := hij.trans hj'
    have hties :=
      List.pairwise_iff_getElem.mp (ranked_ties candidates) i j hi' hj' hij
    simpa [value, candidate, h, hi', hj'] using hties

/-! ## The first fault -/

/-- The fault of data that make no pool: the target is blamed first, then the
input limit, then the largest of the values that are not positive. -/
inductive Blames (target : ℤ) (candidates : List Candidate)
    (inputLimit : ℕ) : Fault → Prop
  | target (htarget : target ≤ 0) :
      Blames target candidates inputLimit (.targetNotPositive target)
  | inputLimit (htarget : 0 < target) (hlimit : inputLimit = 0) :
      Blames target candidates inputLimit .noInputAllowed
  | value (htarget : 0 < target) (hlimit : 0 < inputLimit) (c : Candidate)
      (hc : c ∈ candidates)
      (hvalue : c.value ≤ 0) (hlargest : ∀ d ∈ candidates, d.value ≤ 0 →
        d.value ≤ c.value) :
      Blames target candidates inputLimit
        (.valueNotPositive (candidates.countP (0 < ·.value)) c.value)

theorem Blames.perm {candidates' : List Candidate} {fault : Fault}
    (h : Blames target candidates inputLimit fault)
    (hperm : candidates.Perm candidates') :
    Blames target candidates' inputLimit fault := by
  cases h with
  | target htarget => exact .target htarget
  | inputLimit htarget hlimit => exact .inputLimit htarget hlimit
  | value htarget hlimit c hc hvalue hlargest =>
      rw [hperm.countP_eq]
      exact .value htarget hlimit c (hperm.mem_iff.mp hc) hvalue fun d hd =>
        hlargest d (hperm.mem_iff.mpr hd)

/-- Data are blamed for one thing only, and only if they make no pool. -/
theorem Blames.unique {fault fault' : Fault}
    (h : Blames target candidates inputLimit fault)
    (h' : Blames target candidates inputLimit fault') : fault = fault' := by
  cases h with
  | target => cases h' with
    | target => rfl
    | inputLimit => omega
    | value => omega
  | inputLimit => cases h' with
    | target => omega
    | inputLimit => rfl
    | value => omega
  | value _ _ c hc hvalue hlargest => cases h' with
    | target => omega
    | inputLimit => omega
    | value _ _ d hd hvalue' hlargest' =>
        rw [le_antisymm (hlargest' c hc hvalue) (hlargest d hd hvalue')]

theorem Blames.fault?_ne_none {fault : Fault}
    (h : Blames target candidates inputLimit fault) :
    fault? target candidates inputLimit ≠ none := by
  rw [ne_eq, fault?_eq_none_iff]
  rintro ⟨htarget, hlimit, hpos, -⟩
  cases h with
  | target => omega
  | inputLimit => omega
  | value _ _ c hc hvalue => exact absurd (hpos c hc) (not_lt.mpr hvalue)

/-- In descending order the first value that is not positive stands behind all
positive ones and is the largest of the rest. -/
theorem findIdx?_of_descending {cs : List Candidate}
    (hdesc : cs.Pairwise fun a b => b.value ≤ a.value) :
    ∀ {i : ℕ}, cs.findIdx? (·.value ≤ 0) = some i →
      i = cs.countP (0 < ·.value) ∧ cs.getD i ⟨0, 0⟩ ∈ cs ∧
        (cs.getD i ⟨0, 0⟩).value ≤ 0 ∧
        ∀ d ∈ cs, d.value ≤ 0 → d.value ≤ (cs.getD i ⟨0, 0⟩).value := by
  induction cs with
  | nil => simp
  | cons c cs ih =>
      intro i hi
      obtain ⟨hc, hdesc'⟩ := List.pairwise_cons.mp hdesc
      rw [List.findIdx?_cons] at hi
      by_cases hvalue : c.value ≤ 0
      · obtain rfl : 0 = i := by simpa [hvalue] using hi
        have hrest : cs.countP (0 < ·.value) = 0 := by
          rw [List.countP_eq_zero]
          intro d hd
          simpa using (hc d hd).trans hvalue
        refine ⟨?_, by simp, hvalue, ?_⟩
        · rw [List.countP_cons_of_neg (by simpa using hvalue), hrest]
        · intro d hd _
          rcases List.mem_cons.mp hd with rfl | hd
          · exact le_refl _
          · exact hc d hd
      · obtain ⟨j, hj, rfl⟩ : ∃ j,
            cs.findIdx? (·.value ≤ 0) = some j ∧ j + 1 = i := by
          simpa [hvalue] using hi
        obtain ⟨hcount, hmem, hle, hlargest⟩ := ih hdesc' hj
        rw [List.getD_cons_succ]
        refine ⟨?_, List.mem_cons_of_mem c hmem, hle, ?_⟩
        · rw [List.countP_cons_of_pos (by simpa using hvalue), hcount]
        · intro d hd hd'
          rcases List.mem_cons.mp hd with rfl | hd
          · exact absurd hd' hvalue
          · exact hlargest d hd hd'

theorem blames_of_fault?
    (hdesc : candidates.Pairwise fun a b => b.value ≤ a.value) {fault : Fault}
    (h : fault? target candidates inputLimit = some fault) :
    Blames target candidates inputLimit fault := by
  unfold fault? at h
  split at h
  · rename_i htarget
    obtain rfl := Option.some.inj h
    exact .target htarget
  · rename_i htarget
    split at h
    · rename_i hlimit
      obtain rfl := Option.some.inj h
      exact .inputLimit (not_le.mp htarget) hlimit
    · rename_i hlimit
      split at h
      · rename_i i hi
        obtain rfl := Option.some.inj h
        obtain ⟨hcount, hmem, hvalue, hlargest⟩ :=
          findIdx?_of_descending hdesc hi
        subst hcount
        exact .value (not_le.mp htarget) (Nat.pos_of_ne_zero hlimit) _ hmem
          hvalue hlargest
      · rw [firstRise?_eq_none hdesc] at h
        exact absurd h nofun

/-- Of candidates in descending order none stands behind a smaller one. -/
theorem fault?_eq_some_iff
    (hdesc : candidates.Pairwise fun a b => b.value ≤ a.value) {fault : Fault} :
    fault? target candidates inputLimit = some fault ↔
      Blames target candidates inputLimit fault := by
  refine ⟨blames_of_fault? hdesc, fun h => ?_⟩
  obtain ⟨fault', hfault'⟩ := Option.ne_none_iff_exists'.mp h.fault?_ne_none
  rw [hfault', h.unique (blames_of_fault? hdesc hfault')]

/-! ## Sorting -/

theorem sorted_eq (target : ℤ) (candidates : List Candidate) (inputLimit : ℕ) :
    sorted target candidates inputLimit =
      (ofCandidates target ((ranked candidates).map (·.1)) inputLimit).map
        fun p =>
        (p, (ranked candidates).map (·.2)) := by
  rw [sorted]
  cases ofCandidates target ((ranked candidates).map (·.1)) inputLimit <;> rfl

theorem sorted_eq_error_iff {fault : Fault} :
    sorted target candidates inputLimit = .error fault ↔
      Blames target candidates inputLimit fault := by
  have hperm := map_fst_ranked_perm candidates
  have herror : sorted target candidates inputLimit = .error fault ↔
      ofCandidates target ((ranked candidates).map (·.1))
        inputLimit = .error fault := by
    rw [sorted_eq]
    cases ofCandidates target ((ranked candidates).map (·.1)) inputLimit <;>
      simp [Except.map]
  rw [herror, ofCandidates_eq_error_iff,
    fault?_eq_some_iff (ranked_descending candidates)]
  exact ⟨fun h => h.perm hperm, fun h => h.perm hperm.symm⟩

theorem ranks_of_sorted {p : Pool} {order : List ℕ}
    (h : sorted target candidates inputLimit = .ok (p, order)) :
    p.target = target ∧ p.inputLimit = inputLimit ∧
      Ranks candidates p order := by
  rw [sorted_eq] at h
  cases hp : ofCandidates target ((ranked candidates).map (·.1)) inputLimit with
  | error fault =>
      rw [hp] at h
      cases h
  | ok p' =>
      rw [hp] at h
      cases h
      obtain ⟨htarget, hcandidates, hlimit⟩ := ofCandidates_spec hp
      exact ⟨htarget, hlimit, ranks_ranked hcandidates⟩

theorem exists_sorted (htarget : 0 < target) (hlimit : 0 < inputLimit)
    (hpos : ∀ c ∈ candidates, 0 < c.value) :
    ∃ p order, sorted target candidates inputLimit = .ok (p, order) := by
  obtain ⟨p, hp⟩ := exists_ofCandidates htarget hlimit
    (fun c hc => hpos c ((map_fst_ranked_perm candidates).mem_iff.mp hc))
    (ranked_descending candidates)
  rw [sorted_eq, hp]
  exact ⟨p, _, rfl⟩

/-- Sorting makes a pool exactly when the target, the input limit and all values
are positive.  The pool ranks the candidates; what else it fails with is blamed
as `Blames` says, so neither unequal lengths nor an ascent among the values are
ever reported. -/
theorem sorted_ranks_or_blames (target : ℤ) (candidates : List Candidate)
    (inputLimit : ℕ) :
    ((∃ p order, sorted target candidates inputLimit = .ok (p, order)) ↔
        0 < target ∧ 0 < inputLimit ∧ ∀ c ∈ candidates, 0 < c.value) ∧
      (∀ p order, sorted target candidates inputLimit = .ok (p, order) →
        p.target = target ∧ p.inputLimit = inputLimit ∧
          Ranks candidates p order) ∧
      ∀ fault, sorted target candidates inputLimit = .error fault ↔
        Blames target candidates inputLimit fault := by
  refine ⟨⟨?_, ?_⟩, fun _ _ => ranks_of_sorted, fun _ => sorted_eq_error_iff⟩
  · rintro ⟨p, order, h⟩
    obtain ⟨rfl, rfl, hranks⟩ := ranks_of_sorted h
    refine ⟨p.target_pos, p.inputLimit_pos, fun c hc => p.value_pos c ?_⟩
    exact hranks.mem_candidates hc
  · rintro ⟨htarget, hlimit, hpos⟩
    exact exists_sorted htarget hlimit hpos

theorem sorted_ranks_four_candidates :
    (∃ p order,
      sorted 10 [⟨3, 30⟩, ⟨9, 90⟩, ⟨3, 31⟩, ⟨5, 50⟩] 4 = .ok (p, order) ∧
        Ranks [⟨3, 30⟩, ⟨9, 90⟩, ⟨3, 31⟩, ⟨5, 50⟩] p order) ∧
      sorted 10 [⟨-4, 30⟩, ⟨9, 90⟩, ⟨-1, 31⟩, ⟨5, 50⟩] 4 =
        .error (.valueNotPositive 2 (-1)) := by
  obtain ⟨hok, hranks, -⟩ :=
    sorted_ranks_or_blames 10 [⟨3, 30⟩, ⟨9, 90⟩, ⟨3, 31⟩, ⟨5, 50⟩] 4
  obtain ⟨p, order, h⟩ := hok.mpr (by decide)
  refine ⟨⟨p, order, h, (hranks p order h).2.2⟩, ?_⟩
  apply ((sorted_ranks_or_blames 10
    [⟨-4, 30⟩, ⟨9, 90⟩, ⟨-1, 31⟩, ⟨5, 50⟩] 4).2.2 _).mpr
  exact .value (by decide) (by decide) ⟨-1, 31⟩ (by decide)
    (by decide) (by decide)

/-- The two candidates of value three stand in the order in which they came. -/
example :
    (sorted 10 [⟨3, 30⟩, ⟨9, 90⟩, ⟨3, 31⟩, ⟨5, 50⟩] 4).toOption.map (·.2) =
    some [1, 3, 0, 2] := by cbv

end Pool
end ExactSpend
