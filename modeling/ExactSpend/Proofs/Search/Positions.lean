import ExactSpend.Search
import Mathlib.Algebra.Order.BigOperators.Group.List
import Mathlib.Algebra.Order.Ring.Int

/-!
# Sets of positions of a pool

A set of positions is written as a strictly increasing list.  This module
holds what the search knows about such lists before it takes a step: how their
sums compare, where the first fitting value stands, which candidates are
skipped as equal, and what the totals of the tails are.
-/

namespace ExactSpend

namespace Signed

theorem total_eq_sum (amounts : List ℤ) : total amounts = amounts.sum := rfl

theorem total_perm {xs ys : List ℤ} (h : xs.Perm ys) : total xs = total ys := by
  rw [total_eq_sum, total_eq_sum]
  exact h.sum_eq

theorem total_nonneg {amounts : List ℤ} (h : ∀ a ∈ amounts, 0 ≤ a) :
    0 ≤ total amounts :=
  List.sum_nonneg h

end Signed

namespace Pool

variable {p : Pool}

/-- The sum of the values at some positions. -/
def sum (p : Pool) (positions : List ℕ) : ℤ :=
  Signed.total (positions.map p.value)

@[simp] theorem sum_nil : p.sum [] = 0 := rfl

@[simp] theorem sum_cons (i : ℕ) (positions : List ℕ) :
    p.sum (i :: positions) = p.value i + p.sum positions := rfl

@[simp] theorem sum_append (xs ys : List ℕ) :
    p.sum (xs ++ ys) = p.sum xs + p.sum ys := by
  simp [sum]

@[simp] theorem sum_reverse (xs : List ℕ) : p.sum xs.reverse = p.sum xs :=
  Signed.total_perm ((List.reverse_perm xs).map p.value)

/-- A set of positions that a selection may consist of. -/
structure IsChoice (p : Pool) (positions : List ℕ) : Prop where
  increasing : positions.Pairwise (· < ·)
  lt_size : ∀ i ∈ positions, i < p.size
  length_le : positions.length ≤ p.inputLimit

/-! ## Values -/

theorem candidate_eq_getElem {i : ℕ} (h : i < p.candidates.size) :
    p.candidate i = p.candidates[i] := by
  simp [candidate, h]

theorem candidate_mem {i : ℕ} (h : i < p.size) :
    p.candidate i ∈ p.candidates.toList := by
  rw [candidate_eq_getElem h]
  exact Array.getElem_mem_toList h

theorem candidate_of_size_le {i : ℕ} (h : p.size ≤ i) :
    p.candidate i = ⟨0, 0⟩ := by
  have hout : ¬i < p.candidates.size := not_lt.mpr h
  simp [candidate, hout]

theorem value_pos_of_lt {i : ℕ} (h : i < p.size) : 0 < p.value i :=
  p.value_pos _ (candidate_mem h)

theorem value_nonneg (i : ℕ) : 0 ≤ p.value i := by
  by_cases h : i < p.size
  · exact le_of_lt (value_pos_of_lt h)
  · rw [value, candidate_of_size_le (not_lt.mp h)]

theorem value_anti {i j : ℕ} (hij : i ≤ j) (hj : j < p.size) :
    p.value j ≤ p.value i := by
  rcases eq_or_lt_of_le hij with rfl | hlt
  · exact le_refl _
  · have hj' : j < p.candidates.size := hj
    have hi' : i < p.candidates.size := lt_trans hlt hj'
    rw [value, value, candidate_eq_getElem hi', candidate_eq_getElem hj']
    exact List.pairwise_iff_getElem.mp p.descending i j hi' hj' hlt

theorem sum_nonneg (positions : List ℕ) : 0 ≤ p.sum positions :=
  Signed.total_nonneg (by simpa using fun i _ => p.value_nonneg i)

theorem sum_le_sum_append (xs ys : List ℕ) : p.sum xs ≤ p.sum (xs ++ ys) := by
  have := p.sum_nonneg ys
  rw [sum_append]
  omega

/-! ## Runs of neighbouring positions -/

/-- The first `m` positions from `k` on. -/
theorem sum_range'_succ (k m : ℕ) :
    p.sum (List.range' k (m + 1)) =
      p.value k + p.sum (List.range' (k + 1) m) := by
  rw [List.range'_succ, sum_cons]

theorem sum_range'_le {k m n : ℕ} (h : m ≤ n) :
    p.sum (List.range' k m) ≤ p.sum (List.range' k n) := by
  obtain ⟨d, rfl⟩ := Nat.exists_eq_add_of_le h
  rw [← List.range'_append_1]
  exact sum_le_sum_append _ _

theorem sum_range'_lt {k m n : ℕ} (h : m < n) (hn : k + n ≤ p.size) :
    p.sum (List.range' k m) < p.sum (List.range' k n) := by
  have hstep : p.sum (List.range' k m) < p.sum (List.range' k (m + 1)) := by
    have := p.value_pos_of_lt (i := k + m) (by omega)
    rw [List.range'_1_concat, sum_append, sum_cons, sum_nil]
    omega
  exact hstep.trans_le (sum_range'_le h)

/-- Values descend, so no positions from `k` on are worth more than equally
many from `k` on without a gap. -/
theorem sum_le_sum_range' {l : List ℕ} (hinc : l.Pairwise (· < ·)) :
    ∀ {k : ℕ}, (∀ i ∈ l, k ≤ i) → (∀ i ∈ l, i < p.size) →
      p.sum l ≤ p.sum (List.range' k l.length) := by
  induction l with
  | nil => simp
  | cons a l ih =>
      intro k hk hsize
      obtain ⟨ha, hinc'⟩ := List.pairwise_cons.mp hinc
      have hka : k ≤ a := hk a (by simp)
      have hvalue : p.value a ≤ p.value k := value_anti hka (hsize a (by simp))
      have hrest : p.sum l ≤ p.sum (List.range' (k + 1) l.length) :=
        ih hinc' (fun i hi => by have := ha i hi; omega)
          (fun i hi => hsize i (by simp [hi]))
      rw [List.length_cons, sum_range'_succ, sum_cons]
      omega

/-- Strictly increasing positions from `k` on are at most as many as there
are. -/
theorem length_le_of_increasing {l : List ℕ} (hinc : l.Pairwise (· < ·)) :
    ∀ {k n : ℕ}, (∀ i ∈ l, k ≤ i) → (∀ i ∈ l, i < n) → l.length ≤ n - k := by
  induction l with
  | nil => simp
  | cons a l ih =>
      intro k n hk hn
      obtain ⟨ha, hinc'⟩ := List.pairwise_cons.mp hinc
      have hka := hk a (by simp)
      have han := hn a (by simp)
      have hlen : l.length ≤ n - (a + 1) :=
        ih hinc' (fun i hi => ha i hi) (fun i hi => hn i (by simp [hi]))
      rw [List.length_cons]
      omega

/-- No at most `m` positions from `k` on are worth more than the first `m`, and
as much only if they are as many. -/
theorem sum_le_sum_first {l : List ℕ} {k m : ℕ} (hinc : l.Pairwise (· < ·))
    (hk : ∀ i ∈ l, k ≤ i) (hsize : ∀ i ∈ l, i < p.size) (hlen : l.length ≤ m)
    (hm : k + m ≤ p.size) :
    p.sum l ≤ p.sum (List.range' k m) ∧
      (p.sum l = p.sum (List.range' k m) → m ≤ l.length) := by
  have htop := sum_le_sum_range' hinc hk hsize
  constructor
  · exact htop.trans (sum_range'_le hlen)
  · intro heq
    by_contra hlonger
    have hstrict := sum_range'_lt (not_le.mp hlonger) hm
    exact absurd heq (ne_of_lt (htop.trans_lt hstrict))

/-! ## The first fitting position -/

/-- Halving finds the first index of a range at which a test holds that, once
it holds, keeps holding. -/
theorem bisect_spec {test : ℕ → Bool} (steps : ℕ) :
    ∀ {lo hi : ℕ}, lo ≤ hi → hi - lo ≤ steps →
      (∀ i j, i ≤ j → j < hi → test i = true → test j = true) →
      lo ≤ bisect test steps lo hi ∧ bisect test steps lo hi ≤ hi ∧
        (∀ i, lo ≤ i → i < bisect test steps lo hi → test i = false) ∧
        (bisect test steps lo hi < hi →
          test (bisect test steps lo hi) = true) := by
  induction steps with
  | zero =>
      intro lo hi hle hsteps _
      have heq : lo = hi := by omega
      subst heq
      exact ⟨le_refl _, le_refl _, fun i h h' => absurd h' (not_lt.mpr h),
        fun h => absurd h (lt_irrefl _)⟩
  | succ steps ih =>
      intro lo hi hle hsteps hmono
      rw [bisect]
      by_cases hempty : hi ≤ lo
      · rw [if_pos hempty]
        exact ⟨le_refl _, hle, fun i h h' => absurd h' (not_lt.mpr h),
          fun h => absurd h (not_lt.mpr hempty)⟩
      · rw [if_neg hempty]
        by_cases hmid : test ((lo + hi) / 2) = true
        · simp only [hmid, if_true]
          obtain ⟨hlo, hhi, hbefore, hat⟩ := @ih lo ((lo + hi) / 2)
            (by omega) (by omega) fun i j hij hj => hmono i j hij (by omega)
          refine ⟨hlo, by omega, hbefore, fun _ => ?_⟩
          rcases lt_or_eq_of_le hhi with hlt | heq
          · exact hat hlt
          · rw [heq]
            exact hmid
        · simp only [hmid]
          obtain ⟨hlo, hhi, hbefore, hat⟩ := @ih ((lo + hi) / 2 + 1) hi
            (by omega) (by omega) hmono
          refine ⟨le_trans (by omega) hlo, hhi, fun i hi' hlt => ?_, hat⟩
          by_cases hle' : i ≤ (lo + hi) / 2
          · have hnot := fun h => hmid (hmono i _ hle' (by omega) h)
            simpa using hnot
          · exact hbefore i (by omega) hlt

/-- The first fitting position splits the open positions into those that
overshoot the room and those that fit. -/
theorem firstFitting_spec (room : ℤ) {start : ℕ} (hstart : start ≤ p.size) :
    start ≤ p.firstFitting room start ∧ p.firstFitting room start ≤ p.size ∧
      (∀ i, start ≤ i → i < p.firstFitting room start → room < p.value i) ∧
      (p.firstFitting room start < p.size →
        p.value (p.firstFitting room start) ≤ room) := by
  have hmono : ∀ i j, i ≤ j → j < p.size →
      decide (p.value i ≤ room) = true → decide (p.value j ≤ room) = true := by
    intro i j hij hj hi
    exact decide_eq_true ((value_anti hij hj).trans (of_decide_eq_true hi))
  obtain ⟨hlo, hhi, hbefore, hat⟩ :=
    bisect_spec (p.size - start) hstart (le_refl _) hmono
  refine ⟨hlo, hhi, fun i hi hlt => ?_, fun h => of_decide_eq_true (hat h)⟩
  exact not_le.mp (of_decide_eq_false (hbefore i hi hlt))

/-! ## Equal candidates -/

/-- Only candidates equal to the one at `i` are skipped. -/
theorem skipEqual_spec (i : ℕ) (steps : ℕ) :
    ∀ next, next ≤ p.skipEqual i steps next ∧
      p.skipEqual i steps next ≤ next + steps ∧
      ∀ j, next ≤ j → j < p.skipEqual i steps next →
        p.candidate j = p.candidate i := by
  induction steps with
  | zero =>
      intro next
      exact ⟨le_refl _, le_refl _, fun j h h' => absurd h' (not_lt.mpr h)⟩
  | succ steps ih =>
      intro next
      rw [skipEqual]
      by_cases heq : p.candidate next = p.candidate i
      · rw [if_pos heq]
        obtain ⟨hle, hge, hskip⟩ := ih (next + 1)
        refine ⟨by omega, by omega, fun j hj hlt => ?_⟩
        rcases eq_or_lt_of_le hj with rfl | hlt'
        · exact heq
        · exact hskip j hlt' hlt
      · rw [if_neg heq]
        exact ⟨le_refl _, by omega, fun j h h' => absurd h' (not_lt.mpr h)⟩

/-! ## Totals of the tails -/

/-- The sum of all values from a position on. -/
def tailSum (p : Pool) (i : ℕ) : ℤ :=
  p.sum (List.range' i (p.size - i))

theorem drop_candidates (p : Pool) (i : ℕ) :
    p.candidates.toList.drop i =
      (List.range' i (p.size - i)).map p.candidate := by
  apply List.ext_getElem
  · simp [size]
  · intro k hk hk'
    have hlt : i + k < p.candidates.size := by
      simp at hk
      omega
    simp [candidate_eq_getElem hlt]

/-- The totals of the tails are capped sums wherever the addition that forms
them respects the cap. -/
theorem foldr_tails {add : ℤ → ℤ → ℤ} {cap : ℤ → ℤ} (hzero : cap 0 = 0)
    (hadd : ∀ total value, 0 < value →
      add (cap total) value = cap (value + total))
    {cs : List Candidate} (hpos : ∀ c ∈ cs, 0 < c.value) :
    ∀ i ≤ cs.length,
      (cs.foldr (fun c tails => add (tails.headD 0) c.value :: tails) [0]).getD
        i 0 = cap (Signed.total ((cs.drop i).map (·.value))) := by
  induction cs with
  | nil =>
      intro i hi
      have hnil : i = 0 := by simpa using hi
      subst hnil
      exact hzero.symm
  | cons c cs ih =>
      intro i hi
      have ih' := ih fun c hc => hpos c (by simp [hc])
      cases i with
      | zero =>
          have hhead := ih' 0 (Nat.zero_le _)
          rw [List.drop_zero, ← List.headD_eq_getD] at hhead
          rw [List.foldr_cons, List.getD_cons_zero, hhead, List.drop_zero,
            List.map_cons, Signed.total_cons]
          exact hadd _ _ (hpos c (by simp))
      | succ i =>
          rw [List.foldr_cons, List.getD_cons_succ, List.drop_succ_cons]
          exact ih' i (by simpa using hi)

theorem tailsBy_getD {add : ℤ → ℤ → ℤ} (cap : ℤ → ℤ) (hzero : cap 0 = 0)
    (hadd : ∀ total value, 0 < value →
      add (cap total) value = cap (value + total)) {i : ℕ}
    (hi : i ≤ p.size) : (p.tailsBy add).getD i 0 = cap (p.tailSum i) := by
  have hfold := foldr_tails hzero hadd p.value_pos i hi
  have hvalue : (fun c : Candidate => c.value) ∘ p.candidate = p.value := rfl
  rw [drop_candidates, List.map_map, hvalue] at hfold
  rw [tailSum, sum, ← hfold]
  simp [tailsBy]

/-- The stored total of a tail is its sum, cut off at the ceiling. -/
theorem tails_getD {i : ℕ} (hi : i ≤ p.size) :
    p.tails.getD i 0 = min (p.tailSum i) signedMax := by
  refine tailsBy_getD (fun total => min total signedMax) rfl ?_ hi
  intro total value hvalue
  rw [Signed.add]
  omega

theorem tailSum_zero :
    p.tailSum 0 = Signed.total (p.candidates.toList.map (·.value)) := by
  have hall := p.drop_candidates 0
  rw [List.drop_zero] at hall
  rw [hall, List.map_map]
  rfl

/-- No positions from `k` on are worth more than all of them. -/
theorem sum_le_tailSum {l : List ℕ} {k : ℕ} (hinc : l.Pairwise (· < ·))
    (hk : ∀ i ∈ l, k ≤ i) (hsize : ∀ i ∈ l, i < p.size) :
    p.sum l ≤ p.tailSum k :=
  (sum_le_sum_range' hinc hk hsize).trans
    (sum_range'_le (length_le_of_increasing hinc hk hsize))

end Pool

end ExactSpend
