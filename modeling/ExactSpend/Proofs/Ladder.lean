import ExactSpend.Ladder
import ExactSpend.Proofs.Search.FirstMatch

/-!
# Climbs

A climb goes past the tolerances that admit no match and stops at the first one
that does.  Nothing is known of a tolerance before it is drawn, so a signal that
is raised while one is drawn leaves the climb where the tolerances before it
lead.  A larger tolerance moves neither edge of the band inwards: of tolerances
in ascending order the one that is found is the least, and all behind it match.
-/

namespace ExactSpend

namespace Goal

variable {settings : Settings} {side : Side} {pool : Pool} {tolerance wider : ℕ}

/-- Bands are nested, also where they end at the ceiling or at one. -/
theorem band_mono (h : tolerance ≤ wider) :
    (ofSettings settings side pool wider).lowest ≤
        (ofSettings settings side pool tolerance).lowest ∧
      (ofSettings settings side pool tolerance).highest ≤
        (ofSettings settings side pool wider).highest := by
  have hcount := Signed.ofCount_mono h
  cases side with
  | more =>
      refine ⟨le_rfl, ?_⟩
      exact Signed.add_mono le_rfl hcount
  | less =>
      refine ⟨?_, le_rfl⟩
      exact max_le_max_right 1 (Int.sub_le_sub_left hcount _)

theorem Matches.of_le {positions : List ℕ}
    (hmatches : (ofSettings settings side pool tolerance).Matches positions)
    (h : tolerance ≤ wider) :
    (ofSettings settings side pool wider).Matches positions := by
  obtain ⟨hlowest, hhighest⟩ := @band_mono settings side pool _ _ h
  obtain ⟨hlow, hhigh⟩ := isMatch_iff.mp hmatches.inBand
  exact ⟨hmatches.choice,
    isMatch_iff.mpr ⟨hlowest.trans hlow, hhigh.trans hhighest⟩⟩

end Goal

namespace Climb

variable {settings : Settings} {side : Side} {pool : Pool} {signal : ℕ → Bool}
  {tolerance drawn : ℕ} {rest : List ℕ} {c : Climb}

/-- The search with one tolerance while nothing is cancelled. -/
def trial (settings : Settings) (side : Side) (pool : Pool)
    (tolerance : ℕ) : Report :=
  (Goal.ofSettings settings side pool tolerance).search settings.limits
    fun _ => false

/-- Some set of positions matches with a tolerance. -/
def Works (settings : Settings) (side : Side) (pool : Pool)
    (tolerance : ℕ) : Prop :=
  ∃ positions, (Goal.ofSettings settings side pool tolerance).Matches positions

/-! ## Steps -/

theorem onward_cons_of_raised (h : signal (drawn + 1) = true) :
    onward settings side pool signal drawn (tolerance :: rest) =
      ⟨none, drawn + 1⟩ := by
  rw [onward, if_pos h]

theorem onward_cons_of_found (h : signal (drawn + 1) = false) {s : Selection}
    (hs : (trial settings side pool tolerance).found = some s) :
    onward settings side pool signal drawn (tolerance :: rest) =
      ⟨some (tolerance, s), drawn + 1⟩ := by
  rw [trial] at hs
  simp [onward, h, hs]

theorem onward_cons_of_none (h : signal (drawn + 1) = false)
    (hnone : (trial settings side pool tolerance).found = none) :
    onward settings side pool signal drawn (tolerance :: rest) =
      onward settings side pool signal (drawn + 1) rest := by
  rw [trial] at hnone
  simp [onward, h, hnone]

/-- While the signal is not raised a climb goes through the tolerances in front
first, and on to the others if none of them leads to a match. -/
theorem onward_append (front : List ℕ) :
    ∀ {drawn : ℕ},
      (∀ n, drawn < n → n ≤ drawn + front.length → signal n = false) →
      onward settings side pool signal drawn (front ++ rest) =
        if (onward settings side pool (fun _ => false) drawn front).found.isSome
          then
          onward settings side pool (fun _ => false) drawn front
        else onward settings side pool signal (drawn + front.length) rest := by
  induction front with
  | nil => exact fun _ => rfl
  | cons tolerance front ih =>
      intro drawn hquiet
      have hfirst : signal (drawn + 1) = false :=
        hquiet (drawn + 1) (Nat.lt_succ_self drawn) (by simp)
      have hlength :
          drawn + (tolerance :: front).length = drawn + 1 + front.length := by
        rw [List.length_cons]
        omega
      rw [List.cons_append]
      cases hfound : (trial settings side pool tolerance).found with
      | some s =>
          rw [onward_cons_of_found hfirst hfound,
            onward_cons_of_found rfl hfound]
          rfl
      | none =>
          rw [onward_cons_of_none hfirst hfound,
            onward_cons_of_none rfl hfound, hlength]
          apply ih
          intro n hn hle
          exact hquiet n (Nat.lt_of_succ_lt hn) (hlength ▸ hle)

/-- A signal that is raised as a tolerance is drawn leaves the climb with what
the tolerances in front of it lead to. -/
theorem climb_of_raised (front : List ℕ) (tolerance : ℕ) (rest : List ℕ) :
    climb settings side pool (fun drawn => front.length < drawn)
      (front ++ tolerance :: rest) =
      if (climb settings side pool (fun _ => false) front).found.isSome then
        climb settings side pool (fun _ => false) front
      else ⟨none, front.length + 1⟩ := by
  rw [climb, onward_append, onward_cons_of_raised, Nat.zero_add]
  · rfl
  · simp
  · intro n _ hle
    simpa using hle

/-! ## Where a climb stops -/

/-- Where a climb that nothing cancels stops after some earlier tolerances: at
the first tolerance that works, with the first match that this one admits, or
behind the last if none works. -/
inductive StopsAt (settings : Settings) (side : Side) (pool : Pool) (drawn : ℕ)
    (tolerances : List ℕ) : Climb → Prop
  | matched (before : List ℕ) (tolerance : ℕ) (after : List ℕ) (s : Selection)
      (hsplit : tolerances = before ++ tolerance :: after)
      (hbefore : ∀ t ∈ before, ¬Works settings side pool t)
      (hs : s = Selection.ofPositions pool s.positions)
      (hfirst : (Goal.ofSettings settings side pool tolerance).IsFirstMatch
        s.positions) :
      StopsAt settings side pool drawn tolerances
        ⟨some (tolerance, s), drawn + before.length + 1⟩
  | exhausted (hnone : ∀ t ∈ tolerances, ¬Works settings side pool t) :
      StopsAt settings side pool drawn tolerances
        ⟨none, drawn + tolerances.length⟩

theorem StopsAt.cons (hskip : ¬Works settings side pool tolerance)
    (h : StopsAt settings side pool (drawn + 1) rest c) :
    StopsAt settings side pool drawn (tolerance :: rest) c := by
  cases h with
  | matched before tolerance' after s hsplit hbefore hs hfirst =>
      have hcount : drawn + 1 + before.length + 1 =
          drawn + (tolerance :: before).length + 1 := by
        rw [List.length_cons]
        omega
      rw [hcount, hsplit]
      exact .matched (tolerance :: before) tolerance' after s rfl
        (List.forall_mem_cons.mpr ⟨hskip, hbefore⟩) hs hfirst
  | exhausted hnone =>
      have hcount :
          drawn + 1 + rest.length = drawn + (tolerance :: rest).length := by
        rw [List.length_cons]
        omega
      rw [hcount]
      exact .exhausted (List.forall_mem_cons.mpr ⟨hskip, hnone⟩)

theorem not_works_of_none (htarget : pool.target ≤ signedMax)
    (hbudget : (trial settings side pool tolerance).ending ≠ .budgetSpent)
    (hnone : (trial settings side pool tolerance).found = none) :
    ¬Works settings side pool tolerance := by
  rintro ⟨positions, hmatches⟩
  have hfound : (trial settings side pool tolerance).found.isSome = true :=
    Goal.search_found_of_matches (g := .ofSettings settings side pool tolerance)
      htarget hbudget (Goal.search_ne_cancelled _ _) hmatches
  rw [hnone] at hfound
  exact Bool.false_ne_true hfound

theorem onward_stopsAt (htarget : pool.target ≤ signedMax) {tolerances : List ℕ}
    (hbudget : ∀ t ∈ tolerances,
      (trial settings side pool t).ending ≠ .budgetSpent) :
    ∀ {drawn : ℕ}, StopsAt settings side pool drawn tolerances
      (onward settings side pool (fun _ => false) drawn tolerances) := by
  induction tolerances with
  | nil => exact fun {drawn} => .exhausted (by simp)
  | cons tolerance rest ih =>
      intro drawn
      obtain ⟨hfirst, hrest⟩ := List.forall_mem_cons.mp hbudget
      cases hfound : (trial settings side pool tolerance).found with
      | some s =>
          obtain ⟨hs, hleast⟩ := Goal.isFirstMatch_of_search_found
            (g := .ofSettings settings side pool tolerance) htarget hfound
          rw [onward_cons_of_found rfl hfound]
          exact .matched [] tolerance rest s rfl (by simp) hs hleast
      | none =>
          rw [onward_cons_of_none rfl hfound]
          exact .cons (not_works_of_none htarget hfirst hfound) (ih hrest)

/-- Of tolerances in ascending order the one found is the least that works, and
all tolerances that were not drawn admit its match. -/
theorem StopsAt.least_of_ascending {tolerances : List ℕ}
    (h : StopsAt settings side pool 0 tolerances c)
    (hascending : tolerances.Pairwise (· ≤ ·))
    {s : Selection} (hfound : c.found = some (tolerance, s)) :
    (∀ t ∈ tolerances, Works settings side pool t → tolerance ≤ t) ∧
      ∀ t ∈ tolerances.drop c.drawn,
        (Goal.ofSettings settings side pool t).Matches s.positions := by
  cases h with
  | exhausted => cases hfound
  | matched before _ after _ hsplit hbefore _ hfirst =>
      cases hfound
      rw [hsplit, List.pairwise_append, List.pairwise_cons] at hascending
      obtain ⟨-, ⟨hafter, -⟩, -⟩ := hascending
      constructor
      · intro t ht hworks
        rw [hsplit, List.mem_append, List.mem_cons] at ht
        rcases ht with ht | rfl | ht
        · exact absurd hworks (hbefore t ht)
        · exact le_rfl
        · exact hafter t ht
      · intro t ht
        have hdrop : tolerances.drop (0 + before.length + 1) = after := by
          rw [hsplit, Nat.zero_add, List.drop_append]
          simp
        exact hfirst.1.of_le (hafter t (hdrop ▸ ht))

/-- A climb whose searches do not run out of iterations stops at the first
tolerance with which some set of positions matches, with the first such set, and
has drawn the tolerances up to it; without one it has drawn all and found
nothing.  If the tolerances ascend, that tolerance is the least of those that
work and all behind it match as well, because bands are nested.  When the signal
is raised as a tolerance is drawn, neither this tolerance nor a later one is
searched: the climb comes to what the tolerances in front lead to, and if they
lead to nothing it has drawn one more. -/
theorem climb_stops_first (htarget : pool.target ≤ signedMax)
    {tolerances : List ℕ}
    (hbudget : ∀ t ∈ tolerances,
      (trial settings side pool t).ending ≠ .budgetSpent) :
    let free := climb settings side pool (fun _ => false)
    StopsAt settings side pool 0 tolerances (free tolerances) ∧
      (tolerances.Pairwise (· ≤ ·) → ∀ tolerance s,
        (free tolerances).found = some (tolerance, s) →
          (∀ t ∈ tolerances, Works settings side pool t → tolerance ≤ t) ∧
            ∀ t ∈ tolerances.drop (free tolerances).drawn,
              (Goal.ofSettings settings side pool t).Matches s.positions) ∧
      (∀ tolerance wider, tolerance ≤ wider →
        (Goal.ofSettings settings side pool wider).lowest ≤
            (Goal.ofSettings settings side pool tolerance).lowest ∧
          (Goal.ofSettings settings side pool tolerance).highest ≤
            (Goal.ofSettings settings side pool wider).highest) ∧
      ∀ front tolerance rest, tolerances = front ++ tolerance :: rest →
        StopsAt settings side pool 0 front (free front) ∧
          climb settings side pool (fun drawn => front.length < drawn)
              tolerances =
            if (free front).found.isSome then free front
            else ⟨none, front.length + 1⟩ := by
  intro free
  have hstops : StopsAt settings side pool 0 tolerances (free tolerances) :=
    onward_stopsAt htarget hbudget
  refine ⟨hstops, ?_, fun _ _ h => Goal.band_mono h, ?_⟩
  · intro hascending tolerance s hfound
    exact hstops.least_of_ascending hascending hfound
  · rintro front tolerance rest rfl
    refine ⟨?_, climb_of_raised front tolerance rest⟩
    apply onward_stopsAt htarget
    exact fun t ht => hbudget t (List.mem_append_left _ ht)

/-- No coins within the input limit are worth 18, and some are worth 19.  A
climb finds these with its second tolerance, and its last tolerance would admit
them too. -/
theorem climb_stops_first_of_five :
    (Goal.ofFiveCoins .more 18 (by decide)).pool.target ≤ signedMax ∧
      (∀ t ∈ [0, 1, 4], (trial { maxIterations := 100 } .more
        (Goal.ofFiveCoins .more 18 (by decide)).pool t).ending ≠ .budgetSpent) ∧
      ([0, 1, 4] : List ℕ).Pairwise (· ≤ ·) ∧
      climb { maxIterations := 100 } .more
        (Goal.ofFiveCoins .more 18 (by decide)).pool
        (fun _ => false) [0, 1, 4] =
          ⟨some (1, ⟨[1, 3, 4], [10, 5, 4], 19, 3⟩), 2⟩ ∧
      (Goal.ofSettings { maxIterations := 100 } .more
        (Goal.ofFiveCoins .more 18 (by decide)).pool 4).Matches [1, 3, 4] := by
  have htarget : (Goal.ofFiveCoins .more 18 (by decide)).pool.target ≤
      signedMax := by decide
  have hbudget : ∀ t ∈ [0, 1, 4], (trial { maxIterations := 100 } .more
      (Goal.ofFiveCoins .more 18 (by decide)).pool t).ending ≠
        .budgetSpent := by decide
  have hascending : ([0, 1, 4] : List ℕ).Pairwise (· ≤ ·) := by decide
  have hclimb : climb { maxIterations := 100 } .more
      (Goal.ofFiveCoins .more 18 (by decide)).pool (fun _ => false) [0, 1, 4] =
        ⟨some (1, ⟨[1, 3, 4], [10, 5, 4], 19, 3⟩), 2⟩ := by decide
  have hlater := ((climb_stops_first htarget hbudget).2.1 hascending 1 _
    (congrArg Climb.found hclimb)).2
  rw [hclimb] at hlater
  exact ⟨htarget, hbudget, hascending, hclimb, hlater 4 (by decide)⟩

end Climb
end ExactSpend
