import ExactSpend.Proofs.Search.Run
import ExactSpend.Proofs.Search.Sweep
import Mathlib.Data.Finset.Powerset
import Mathlib.Data.List.Dedup

/-!
# Termination

Every turn of a search but the last takes a position or gives one up.  The
frontier of the walk moves upwards with each turn, so the sets of positions
taken come in strictly increasing order and no set comes twice.  As nothing is
given up that was not taken, a search makes at most two turns for every set of
positions within the input limit, and one more to find that it is done.
-/

namespace ExactSpend

namespace Pool

variable {p : Pool}

/-- The number of nonempty sets of positions within the input limit. -/
def choiceCount (p : Pool) : ℕ :=
  ((Finset.range p.size).powerset.filter fun s => s.Nonempty ∧
    s.card ≤ p.inputLimit).card

theorem IsChoice.nodup {l : List ℕ} (h : p.IsChoice l) : l.Nodup :=
  h.increasing.imp ne_of_lt

theorem IsChoice.eq_of_toFinset_eq {l l' : List ℕ} (h : p.IsChoice l)
    (h' : p.IsChoice l') (heq : l.toFinset = l'.toFinset) : l = l' := by
  have hperm := List.perm_of_nodup_nodup_toFinset_eq h.nodup h'.nodup heq
  exact hperm.eq_of_pairwise (fun _ _ _ _ hij hji => absurd hji (lt_asymm hij))
    h.increasing h'.increasing

theorem length_le_choiceCount {ls : List (List ℕ)} (hinc : ls.Pairwise (· < ·))
    (hls : ∀ l ∈ ls, p.IsChoice l ∧ l ≠ []) : ls.length ≤ p.choiceCount := by
  have hnodup : (ls.map List.toFinset).Nodup :=
    List.Nodup.map_on (fun l hl l' hl' =>
      (hls l hl).1.eq_of_toFinset_eq (hls l' hl').1) (hinc.imp ne_of_lt)
  rw [← List.length_map List.toFinset, ← List.toFinset_card_of_nodup hnodup]
  apply Finset.card_le_card
  intro s hs
  obtain ⟨l, hl, rfl⟩ := List.mem_map.mp (List.mem_toFinset.mp hs)
  obtain ⟨hchoice, hne⟩ := hls l hl
  rw [Finset.mem_filter, Finset.mem_powerset, List.toFinset_nonempty_iff,
    List.toFinset_card_of_nodup hchoice.nodup]
  refine ⟨fun i hi => ?_, hne, hchoice.length_le⟩
  exact Finset.mem_range.mpr (hchoice.lt_size i (List.mem_toFinset.mp hi))

end Pool

/-! ## The frontier moves upwards -/

namespace Walk

variable {g : Goal} {w w' : Walk}

theorem frontier_le {f : ℕ} (hf : w.next ≤ f) :
    w.frontier ≤ w.taken.reverse ++ [f] := by
  rcases eq_or_lt_of_le hf with rfl | hlt
  · exact le_refl _
  · exact (List.append_left_lt (List.cons_lt_cons_iff.mpr (Or.inl hlt))).le

theorem lt_frontier_take (p : Pool) (w : Walk) (f : ℕ) :
    w.taken.reverse ++ [f] < (p.take w f).frontier := by
  have hfrontier : (p.take w f).frontier = w.taken.reverse ++ [f, f + 1] := by
    simp [frontier, Pool.take]
  rw [hfrontier]
  exact List.append_left_lt
    (List.cons_lt_cons_iff.mpr (Or.inr ⟨rfl, List.nil_lt_cons _ _⟩))

theorem frontier_lt_of_retreat (h : g.pool.retreat w = .onward w') :
    w.frontier < w'.frontier := by
  obtain ⟨i, rest, htaken, rfl⟩ := Goal.retreat_eq_onward h
  obtain ⟨hskip, -, -⟩ :=
    Pool.skipEqual_spec (p := g.pool) i (g.pool.size - (i + 1)) (i + 1)
  have hfrontier : w.frontier = rest.reverse ++ [i, w.next] := by
    simp [frontier, htaken]
  rw [hfrontier]
  exact List.append_left_lt (List.cons_lt_cons_iff.mpr (Or.inl hskip))

end Walk

namespace Goal

variable {g : Goal} {tails : Array ℤ} {w w' : Walk}

/-! ## The path of a search -/

/-- The walks that a search comes to from a walk on, in some iterations. -/
def path (g : Goal) (tails : Array ℤ) : (iterations : ℕ) → Walk → List Walk
  | 0, _ => []
  | n + 1, w =>
    w :: match (g.turn tails w).move with
      | .onward w' => g.path tails n w'
      | _ => []

/-- The set of positions taken when the turn at a walk takes one more. -/
def taking? (g : Goal) (tails : Array ℤ) (w : Walk) : Option (List ℕ) :=
  match (g.turn tails w).move with
  | .found taken => some taken.reverse
  | .onward w' => if w.taken.length < w'.taken.length then
      some w'.taken.reverse else none
  | .finished => none

/-- The sets of positions that a search takes one after the other. -/
def takings (g : Goal) (tails : Array ℤ) (iterations : ℕ)
    (w : Walk) : List (List ℕ) :=
  (g.path tails iterations w).filterMap (g.taking? tails)

theorem path_of_onward (hmove : (g.turn tails w).move = .onward w') (n : ℕ) :
    g.path tails (n + 1) w = w :: g.path tails n w' := by
  rw [path, hmove]

theorem path_of_ended
    (hmove : ∀ w', (g.turn tails w).move ≠ .onward w') (n : ℕ) :
    g.path tails (n + 1) w = [w] := by
  rw [path]
  split
  · exact absurd ‹_› (hmove _)
  · rfl

theorem length_path_le (n : ℕ) : ∀ w, (g.path tails n w).length ≤ n := by
  induction n with
  | zero => exact fun _ => le_refl _
  | succ n ih =>
      intro w
      rw [path, List.length_cons]
      apply Nat.succ_le_succ
      split
      · exact ih _
      · exact Nat.zero_le _

/-- A turn takes an open position, or it leads where giving up a position
leads. -/
theorem taking?_cases (tails : Array ℤ) (hw : w.Valid g) :
    (∃ f, w.next ≤ f ∧ g.pool.IsChoice (w.taken.reverse ++ [f]) ∧
        g.taking? tails w = some (w.taken.reverse ++ [f]) ∧
        ((g.turn tails w).move = .found (f :: w.taken) ∨
          (g.turn tails w).move = .onward (g.pool.take w f) ∧
            (g.pool.take w f).Valid g)) ∨
      g.taking? tails w = none ∧ (g.turn tails w).move = g.pool.retreat w := by
  have hretreat : (g.turn tails w).move = g.pool.retreat w →
      g.taking? tails w = none := by
    intro hmove
    rw [taking?, hmove]
    cases h : g.pool.retreat w with
    | found => exact absurd h (retreat_ne_found w)
    | finished => rfl
    | onward w' =>
        obtain ⟨i, rest, htaken, rfl⟩ := retreat_eq_onward h
        simp [htaken]
  have hnext := (firstFit_spec hw).1
  have ht := g.turn_cases tails w
  generalize hturn : g.turn tails w = t at ht
  have hmove : (g.turn tails w).move = t.move := congrArg Turn.move hturn
  rw [hturn] at hretreat
  cases ht with
  | blocked => exact Or.inr ⟨hretreat rfl, rfl⟩
  | overshooting => exact Or.inr ⟨hretreat rfl, rfl⟩
  | cut => exact Or.inr ⟨hretreat rfl, rfl⟩
  | matched hslots _ hfit =>
      refine Or.inl ⟨g.firstFit w, hnext, ?_, ?_, Or.inl rfl⟩
      · exact isChoice_append_range' hw hnext hfit hslots
      · rw [taking?, hmove]
        simp
  | descended hslots _ hfit hmiss =>
      refine Or.inl ⟨g.firstFit w, hnext, ?_, ?_,
        Or.inr ⟨rfl, valid_take hw hslots hfit hmiss⟩⟩
      · exact isChoice_append_range' hw hnext hfit hslots
      · rw [taking?, hmove]
        simp [Pool.take]

theorem takings_of_onward (hmove : (g.turn tails w).move = .onward w') (n : ℕ) :
    g.takings tails (n + 1) w =
      (g.taking? tails w).toList ++ g.takings tails n w' := by
  rw [takings, takings, path_of_onward hmove, List.filterMap_eq_flatMap_toList,
    List.filterMap_eq_flatMap_toList, List.flatMap_cons]

theorem takings_of_ended
    (hmove : ∀ w', (g.turn tails w).move ≠ .onward w') (n : ℕ) :
    g.takings tails (n + 1) w = (g.taking? tails w).toList := by
  rw [takings, path_of_ended hmove, List.filterMap_eq_flatMap_toList,
    List.flatMap_singleton]

/-- The sets taken are sets of positions within the input limit, none of them
before the frontier, and they come in strictly increasing order. -/
theorem takings_spec (n : ℕ) : ∀ {w : Walk}, w.Valid g →
    (g.takings tails n w).Pairwise (· < ·) ∧
      ∀ l ∈ g.takings tails n w, w.frontier ≤ l ∧
        g.pool.IsChoice l ∧ l ≠ [] := by
  induction n with
  | zero =>
      intro w _
      exact ⟨List.Pairwise.nil, fun _ h => absurd h List.not_mem_nil⟩
  | succ n ih =>
      intro w hw
      rcases taking?_cases tails hw with
          ⟨f, hf, hchoice, htaking, hfound | ⟨honward, hw'⟩⟩ | ⟨hnone, hmove⟩
      · rw [takings_of_ended (by simp [hfound]), htaking]
        simp [hchoice, Walk.frontier_le hf]
      · obtain ⟨hinc, hlater⟩ := ih hw'
        -- What is taken later lies behind the new frontier, which this set lies
        -- before.
        have hup := Walk.lt_frontier_take g.pool w f
        rw [takings_of_onward honward, htaking]
        constructor
        · exact List.pairwise_cons.mpr
            ⟨fun l hl => hup.trans_le (hlater l hl).1, hinc⟩
        · intro l hl
          rcases List.mem_cons.mp hl with rfl | hl
          · exact ⟨Walk.frontier_le hf, hchoice, by simp⟩
          · obtain ⟨hle, hl'⟩ := hlater l hl
            exact ⟨(Walk.frontier_le hf).trans (hup.le.trans hle), hl'⟩
      · cases hretreat : g.pool.retreat w with
        | found => exact absurd hretreat (retreat_ne_found w)
        | finished =>
            rw [takings_of_ended (by simp [hmove, hretreat]), hnone]
            exact ⟨List.Pairwise.nil, fun _ h => absurd h List.not_mem_nil⟩
        | onward w' =>
            obtain ⟨hinc, hlater⟩ := ih (valid_retreat hw hretreat)
            rw [takings_of_onward (hmove.trans hretreat), hnone]
            refine ⟨hinc, fun l hl => ?_⟩
            obtain ⟨hle, hl'⟩ := hlater l hl
            exact ⟨(Walk.frontier_lt_of_retreat hretreat).le.trans hle, hl'⟩

/-- Of the turns of a search, those that do not take a position give up one that
is taken at the beginning or was taken since, except the last one. -/
theorem length_path_le_takings (n : ℕ) : ∀ {w : Walk}, w.Valid g →
    (g.path tails n w).length ≤
      2 * (g.takings tails n w).length + w.taken.length + 1 := by
  induction n with
  | zero => exact fun _ => Nat.zero_le _
  | succ n ih =>
      intro w hw
      rcases taking?_cases tails hw with
          ⟨f, hf, hchoice, htaking, hfound | ⟨honward, hw'⟩⟩ | ⟨hnone, hmove⟩
      · rw [path_of_ended (by simp [hfound])]
        exact Nat.le_add_left _ _
      · have hrest := ih hw'
        rw [path_of_onward honward, takings_of_onward honward, htaking]
        simp only [Pool.take, List.length_cons, Option.toList_some,
          List.singleton_append] at hrest ⊢
        omega
      · cases hretreat : g.pool.retreat w with
        | found => exact absurd hretreat (retreat_ne_found w)
        | finished =>
            rw [path_of_ended (by simp [hmove, hretreat])]
            exact Nat.le_add_left _ _
        | onward w' =>
            have hrest := ih (valid_retreat hw hretreat)
            -- The turn is paid for by the position that it gives up.
            obtain ⟨i, rest, htaken, rfl⟩ := retreat_eq_onward hretreat
            rw [path_of_onward (hmove.trans hretreat),
              takings_of_onward (hmove.trans hretreat), hnone, htaken]
            simp only [List.length_cons, Option.toList_none, List.nil_append]
              at hrest ⊢
            omega

theorem length_path_start_le (g : Goal) (tails : Array ℤ) (n : ℕ) :
    (g.path tails n (.start g.pool)).length ≤ 2 * g.pool.choiceCount + 1 := by
  obtain ⟨hinc, hlater⟩ := @takings_spec g tails n _ g.valid_start
  have hcount := Pool.length_le_choiceCount hinc fun l hl => (hlater l hl).2
  have hpath : (g.path tails n (.start g.pool)).length ≤
      2 * (g.takings tails n (.start g.pool)).length + 1 :=
    length_path_le_takings n g.valid_start
  omega

/-! ## Iterations of a search -/

/-- A search makes an iteration for each walk of its path, unless it is
cancelled on the way. -/
theorem iterations_explore (stops : ℕ → Bool) (budget : ℕ) :
    ∀ {done : ℕ} {w : Walk} {record : Option Selection},
      (g.explore tails stops budget done w record).iterations ≤
          done + (g.path tails budget w).length ∧
        ((g.explore tails stops budget done w record).ending ≠ .cancelled →
          (g.explore tails stops budget done w record).iterations =
            done + (g.path tails budget w).length) := by
  induction budget with
  | zero => exact ⟨le_refl _, fun _ => rfl⟩
  | succ budget ih =>
      intro done w record
      rw [explore]
      by_cases hstop : stops done = true
      · rw [if_pos hstop]
        exact ⟨Nat.le_add_right _ _, fun h => absurd rfl h⟩
      · rw [if_neg hstop]
        cases hmove : (g.turn tails w).move with
        | found taken =>
            rw [path_of_ended (by simp [hmove])]
            simp [hmove]
        | finished =>
            rw [path_of_ended (by simp [hmove])]
            simp [hmove]
        | onward w' =>
            have hshift : done + ((g.path tails budget w').length + 1) =
                done + 1 + (g.path tails budget w').length := by omega
            rw [path_of_onward hmove, List.length_cons, hshift]
            simp only [hmove]
            exact ih

/-- A search that spends its budget would make one more iteration. -/
theorem explore_budgetSpent {stops : ℕ → Bool} (budget : ℕ) :
    ∀ {done : ℕ} {w : Walk} {record : Option Selection},
      (g.explore tails stops budget done w record).ending = .budgetSpent →
      (g.explore tails stops budget done w record).iterations = done + budget ∧
        (g.path tails (budget + 1) w).length = budget + 1 := by
  induction budget with
  | zero =>
      intro done w record _
      refine ⟨rfl, Nat.le_antisymm (length_path_le 1 w) ?_⟩
      rw [path, List.length_cons]
      exact Nat.le_add_left _ _
  | succ budget ih =>
      intro done w record hend
      rw [explore] at hend ⊢
      by_cases hstop : stops done = true
      · rw [if_pos hstop] at hend
        simp at hend
      · rw [if_neg hstop] at hend ⊢
        cases hmove : (g.turn tails w).move with
        | found taken => simp [hmove] at hend
        | finished => simp [hmove] at hend
        | onward w' =>
            simp only [hmove] at hend ⊢
            obtain ⟨hiterations, hpath⟩ := ih hend
            rw [path_of_onward hmove, List.length_cons, hpath]
            exact ⟨by rw [hiterations]; omega, rfl⟩

/-- The sets of positions that a search takes come in strictly increasing order,
so it takes none twice.  Left alone, it makes one iteration for each walk of its
path, and with a budget of two iterations for every nonempty set of positions
within the input limit, and one more, it comes to its end.  No search makes more
iterations than that, nor more than its budget, which it reports as spent only
when it made that many. -/
theorem search_terminates (g : Goal) (limits : Limits) :
    (g.takings g.pool.tails limits.iterations
        (.start g.pool)).Pairwise (· < ·) ∧
      (g.search limits fun _ => false).iterations =
        (g.path g.pool.tails limits.iterations (.start g.pool)).length ∧
      (2 * g.pool.choiceCount + 1 ≤ limits.iterations →
        (g.search limits fun _ => false).ending = .matched ∨
          (g.search limits fun _ => false).ending = .exhausted) ∧
      ∀ signal, (g.search limits signal).iterations ≤
        2 * g.pool.choiceCount + 1 ∧
        (g.search limits signal).iterations ≤ limits.iterations ∧
        ((g.search limits signal).ending = .budgetSpent →
          (g.search limits signal).iterations = limits.iterations ∧
            limits.iterations < 2 * g.pool.choiceCount + 1) := by
  have hspent : ∀ signal, (g.search limits signal).ending = .budgetSpent →
      (g.search limits signal).iterations = limits.iterations ∧
        limits.iterations < 2 * g.pool.choiceCount + 1 := by
    intro signal hend
    obtain ⟨hiterations, hpath⟩ := explore_budgetSpent limits.iterations hend
    have hbound := g.length_path_start_le g.pool.tails (limits.iterations + 1)
    rw [Nat.zero_add] at hiterations
    rw [hpath] at hbound
    exact ⟨hiterations, hbound⟩
  have hpath : ∀ signal, (g.search limits signal).iterations ≤
      (g.path g.pool.tails limits.iterations (.start g.pool)).length := by
    intro signal
    have hle :=
      (@iterations_explore g g.pool.tails (limits.stops signal)
        limits.iterations 0 (.start g.pool) none).1
    rwa [Nat.zero_add] at hle
  refine ⟨(takings_spec limits.iterations g.valid_start).1, ?_, ?_,
    fun signal => ⟨?_, ?_, ?_⟩⟩
  · have heq :=
      (@iterations_explore g g.pool.tails (limits.stops fun _ => false)
        limits.iterations 0 (.start g.pool) none).2
        (g.search_ne_cancelled limits)
    rwa [Nat.zero_add] at heq
  · intro hbudget
    have hcancelled := g.search_ne_cancelled limits
    have hfinished : (g.search limits fun _ => false).ending ≠ .budgetSpent :=
      fun hend => absurd hbudget (not_le.mpr (hspent _ hend).2)
    cases hend : (g.search limits fun _ => false).ending with
    | matched => exact Or.inl rfl
    | exhausted => exact Or.inr rfl
    | budgetSpent => exact absurd hend hfinished
    | cancelled => exact absurd hend hcancelled
  · exact (hpath signal).trans (g.length_path_start_le _ _)
  · exact (hpath signal).trans (length_path_le _ _)
  · exact hspent signal

theorem search_terminates_of_five :
    2 * (ofFiveCoins .more 18 (by decide)).pool.choiceCount + 1 ≤ 51 ∧
      (((ofFiveCoins .more 18 (by decide)).search ⟨51, 1⟩
          fun _ => false).ending = .matched ∨
        ((ofFiveCoins .more 18 (by decide)).search ⟨51, 1⟩
          fun _ => false).ending = .exhausted) := by
  have hcount : 2 * (ofFiveCoins .more 18 (by decide)).pool.choiceCount + 1 ≤
      51 := by decide
  exact ⟨hcount, (search_terminates _ ⟨51, 1⟩).2.2.1 hcount⟩

end Goal
end ExactSpend
