import ExactSpend.Proofs.Search.Anytime

/-!
# Searches in words

A search computes on unbounded numbers.  The same search in words reads a
position only where there is one, takes no difference of counts below zero, and
comes to nothing as soon as a number does not fit its word.  The invariant of a
search keeps this from happening, however large the values are: the total stays
below the band, so there is always room up to the band's upper edge, and only
what fits this room is added to the total.  How the record weighs what it is
offered is left as it is.
-/

namespace ExactSpend

/-! ## Checked numbers -/

/-- The count, if it fits its word. -/
def Unsigned.word? (n : ℕ) : Option ℕ :=
  if n ≤ unsignedMax then some n else none

/-- The difference of two counts, if it is a count. -/
def Unsigned.sub? (a b : ℕ) : Option ℕ :=
  if b ≤ a then some (a - b) else none

/-- The amount, if it fits its word. -/
def Signed.word? (a : ℤ) : Option ℤ :=
  if -signedMax - 1 ≤ a ∧ a ≤ signedMax then some a else none

theorem Unsigned.word?_of_le {n : ℕ} (h : n ≤ unsignedMax) : word? n = some n :=
  if_pos h

theorem Unsigned.sub?_of_le {a b : ℕ} (h : b ≤ a) : sub? a b = some (a - b) :=
  if_pos h

theorem Signed.word?_of_nonneg {a : ℤ} (h : 0 ≤ a) (hmax : a ≤ signedMax) :
    word? a = some a := by
  have hmin : -signedMax - 1 ≤ a := by
    unfold signedMax
    omega
  exact if_pos ⟨hmin, hmax⟩

theorem Signed.word?_add {a b : ℤ} (h : 0 ≤ a + b) :
    word? (add a b) = some (add a b) :=
  word?_of_nonneg (le_min h (by decide)) (min_le_right _ _)

namespace Pool

variable {p : Pool} {i j : ℕ}

/-! ## Reading a pool -/

theorem getElem?_candidates (hi : i < p.size) :
    p.candidates[i]? = some (p.candidate i) := by
  have hi' : i < p.candidates.size := hi
  rw [candidate_eq_getElem hi', Array.getElem?_eq_getElem hi']

theorem size_tails (p : Pool) : p.tails.size = p.size + 1 := by
  have hlength : ∀ cs : List Candidate,
      (cs.foldr (fun c tails => Signed.add (tails.headD 0) c.value ::
        tails) [0]).length = cs.length + 1 := by
    intro cs
    induction cs with
    | nil => rfl
    | cons c cs ih =>
        rw [List.foldr_cons, List.length_cons, ih, List.length_cons]
  rw [tails, tailsBy, List.size_toArray, hlength, Array.length_toList, size]

theorem getElem?_tails (hi : i ≤ p.size) :
    p.tails[i]? = some (p.tails.getD i 0) := by
  have hi' : i < p.tails.size := by
    rw [size_tails]
    omega
  rw [Array.getElem?_eq_getElem hi']
  simp [hi']

theorem tails_nonneg (hi : i ≤ p.size) : 0 ≤ p.tails.getD i 0 := by
  have hsum : 0 ≤ p.tailSum i := p.sum_nonneg _
  rw [tails_getD hi]
  exact le_min hsum (by decide)

theorem tails_le (hi : i ≤ p.size) : p.tails.getD i 0 ≤ signedMax := by
  rw [tails_getD hi]
  exact min_le_right _ _

theorem tails_anti (hij : i ≤ j) (hj : j ≤ p.size) :
    p.tails.getD j 0 ≤ p.tails.getD i 0 := by
  rw [tails_getD hj, tails_getD (hij.trans hj)]
  exact min_le_min_right _ (tailSum_anti hij hj)

/-! ## Giving up and taking a position -/

/-- The first of at most `steps` positions from `next` on that holds another
candidate, in words. -/
def skipEqual? (p : Pool) (c : Candidate) : (steps next : ℕ) → Option ℕ
  | 0, next => some next
  | steps + 1, next => do
    let other ← p.candidates[next]?
    if other = c then
      let next ← Unsigned.word? (next + 1)
      p.skipEqual? c steps next
    else some next

/-- Gives up the latest position, in words. -/
def retreat? (p : Pool) (w : Walk) : Option Move :=
  match w.taken with
  | [] => some .finished
  | i :: rest => do
    let c ← p.candidates[i]?
    let total ← Signed.word? (w.total - c.value)
    let slots ← Unsigned.sub? p.inputLimit rest.length
    let next ← Unsigned.word? (i + 1)
    let steps ← Unsigned.sub? p.size next
    let next ← p.skipEqual? c steps next
    some (.onward ⟨rest, total, slots, next⟩)

/-- Takes a position, in words. -/
def take? (p : Pool) (w : Walk) (i : ℕ) : Option Walk := do
  let c ← p.candidates[i]?
  let total ← Signed.word? (w.total + c.value)
  let slots ← Unsigned.sub? p.inputLimit (w.taken.length + 1)
  let next ← Unsigned.word? (i + 1)
  some ⟨i :: w.taken, total, slots, next⟩

theorem skipEqual?_eq (hsize : p.size ≤ unsignedMax) (i steps : ℕ) :
    ∀ next, next + steps ≤ p.size →
      p.skipEqual? (p.candidate i) steps next =
        some (p.skipEqual i steps next) := by
  induction steps with
  | zero => exact fun _ _ => rfl
  | succ steps ih =>
      intro next hle
      have hnext : next < p.size := by omega
      have hword : next + 1 ≤ unsignedMax := by omega
      rw [skipEqual?, skipEqual, getElem?_candidates hnext, Option.bind_eq_bind,
        Option.bind_some]
      by_cases heq : p.candidate next = p.candidate i
      · rw [if_pos heq, if_pos heq, Unsigned.word?_of_le hword,
          Option.bind_eq_bind, Option.bind_some]
        exact ih (next + 1) (by omega)
      · rw [if_neg heq, if_neg heq]

end Pool

/-! ## One turn -/

/-- An offer, in words: its range is read off the totals of the tails. -/
def Walk.offer? (w : Walk) (tails : Array ℤ) (first last : ℕ) :
    Option Offer := do
  let before ← tails[first]?
  let after ← tails[last]?
  let difference ← Signed.word? (before - after)
  let _ ← Signed.word? (Signed.add w.total difference)
  some (w.offer first last)

namespace Goal

/-- The offer of the smallest overshoot, in words. -/
def overshoot? (g : Goal) (tails : Array ℤ) (w : Walk) (fits : ℕ) :
    Option (List Offer) :=
  if g.allowsOvershoot ∧ w.next < fits then do
    let first ← Unsigned.sub? fits 1
    let o ← w.offer? tails first fits
    some [o]
  else some []

/-- The offer of the largest open positions that fit, in words. -/
def topUp? (g : Goal) (tails : Array ℤ) (w : Walk) (fits : ℕ) :
    Option Offer := do
  let slots ← Unsigned.sub? g.pool.inputLimit w.taken.length
  let rest ← Unsigned.sub? g.pool.size fits
  let last ← Unsigned.word? (fits + min slots rest)
  w.offer? tails fits last

/-- One iteration, in words. -/
def turn? (g : Goal) (tails : Array ℤ) (w : Walk) : Option Turn :=
  if g.pool.inputLimit ≤ w.taken.length ∨ g.pool.size ≤ w.next then do
    let move ← g.pool.retreat? w
    some ⟨[], move⟩
  else do
    let room ← Signed.word? (g.highest - w.total)
    let fits ← Unsigned.word? (g.pool.firstFitting room w.next)
    let beyond ← g.overshoot? tails w fits
    if g.pool.size ≤ fits then
      let move ← g.pool.retreat? w
      some ⟨beyond, move⟩
    else
      let tail ← tails[fits]?
      let reach ← Signed.word? (Signed.add w.total tail)
      if g.lowest ≤ reach then
        let w' ← g.pool.take? w fits
        if g.isMatch w'.total then some ⟨beyond, .found w'.taken⟩
        else
          let o ← w'.offer? tails w'.next w'.next
          some ⟨beyond ++ [o], .onward w'⟩
      else
        let o ← g.topUp? tails w fits
        let move ← g.pool.retreat? w
        some ⟨beyond ++ [o], move⟩

/-- Repeats turns, in words; the iterations are counted in words, too. -/
def explore? (g : Goal) (tails : Array ℤ) (stops : ℕ → Bool) :
    (budget done : ℕ) → Walk → Option Selection → Option Report
  | 0, done, _, record => some ⟨.budgetSpent, none, record, done⟩
  | budget + 1, done, w, record =>
    if stops done then some ⟨.cancelled, none, record, done⟩
    else do
      let done ← Unsigned.word? (done + 1)
      let t ← g.turn? tails w
      let record := t.offers.foldl (g.weigh tails) record
      match t.move with
      | .found taken =>
        some ⟨.matched,
          some (Selection.ofPositions g.pool taken.reverse), record, done⟩
      | .finished => some ⟨.exhausted, none, record, done⟩
      | .onward w => g.explore? tails stops budget done w record

/-- Searches the pool, in words. -/
def search? (g : Goal) (limits : Limits) (signal : ℕ → Bool) :
    Option Report := do
  let _ ← Unsigned.word? (g.pool.size + 1)
  g.explore? g.pool.tails (limits.stops signal) limits.iterations 0
    (.start g.pool) none

variable {g : Goal} {w : Walk}

/-! ## The band -/

theorem lowest_le_highest (htarget : g.target ≤ signedMax) :
    g.lowest ≤ g.highest :=
  g.lowest_le_target.trans (target_le_highest htarget)

theorem highest_le (htarget : g.target ≤ signedMax) :
    g.highest ≤ signedMax := by
  unfold highest
  split
  · exact min_le_right _ _
  · exact htarget

end Goal

namespace Walk.Valid

variable {g : Goal} {w : Walk}

theorem total_nonneg (hw : w.Valid g) : 0 ≤ w.total :=
  hw.total_eq ▸ g.pool.sum_nonneg w.taken

theorem total_le (hw : w.Valid g) (htarget : g.target ≤ signedMax) :
    w.total ≤ signedMax :=
  hw.total_lt.le.trans (g.lowest_le_target.trans htarget)

theorem room_pos (hw : w.Valid g) (htarget : g.target ≤ signedMax) :
    1 ≤ g.highest - w.total := by
  have hband := Goal.lowest_le_highest htarget
  have hbelow := hw.total_lt
  omega

theorem room_le (hw : w.Valid g) (htarget : g.target ≤ signedMax) :
    g.highest - w.total ≤ signedMax := by
  have htotal := hw.total_nonneg
  have hhighest := Goal.highest_le htarget
  omega

theorem word?_room (hw : w.Valid g) (htarget : g.target ≤ signedMax) :
    Signed.word? (g.highest - w.total) = some (g.highest - w.total) := by
  have hpos := hw.room_pos htarget
  exact Signed.word?_of_nonneg (by omega) (hw.room_le htarget)

theorem sub?_length (hw : w.Valid g) :
    Unsigned.sub? g.pool.inputLimit w.taken.length = some w.slots := by
  have hslots := hw.slots_add
  rw [Unsigned.sub?_of_le (by omega), ← hslots, Nat.add_sub_cancel]

theorem inputLimit_le_length_iff (hw : w.Valid g) :
    g.pool.inputLimit ≤ w.taken.length ↔ w.slots = 0 := by
  have hslots := hw.slots_add
  omega

end Walk.Valid

namespace Pool

variable {g : Goal} {w : Walk} {i : ℕ}

theorem retreat?_eq (hw : w.Valid g) (htarget : g.target ≤ signedMax)
    (hsize : g.pool.size ≤ unsignedMax) :
    g.pool.retreat? w = some (g.pool.retreat w) := by
  cases htaken : w.taken with
  | nil => rw [retreat?, retreat, htaken]
  | cons i rest =>
      have hi : i < g.pool.size :=
        (hw.lt_next i (by simp [htaken])).trans_le hw.next_le
      have htotal : w.total = g.pool.value i + g.pool.sum rest := by
        rw [hw.total_eq, htaken, sum_cons]
      have hrest := g.pool.sum_nonneg rest
      have hvalue := g.pool.value_nonneg i
      have hmax := hw.total_le htarget
      have hword := Signed.word?_of_nonneg (a := w.total - g.pool.value i)
        (by omega) (by omega)
      have hslots := hw.slots_add
      rw [htaken, List.length_cons] at hslots
      have hcount : Unsigned.sub? g.pool.inputLimit rest.length =
          some (w.slots + 1) := by
        rw [Unsigned.sub?_of_le (by omega)]
        congr 1
        omega
      have hskip :=
        skipEqual?_eq hsize i (g.pool.size - (i + 1)) (i + 1) (by omega)
      rw [retreat?, retreat, htaken]
      simp only [getElem?_candidates hi, Option.bind_eq_bind, Option.bind_some]
      rw [← value, hword, hcount, Unsigned.word?_of_le (by omega)]
      simp only [Option.bind_some]
      rw [Unsigned.sub?_of_le hi, Option.bind_some, hskip, Option.bind_some]

theorem take?_eq (hw : w.Valid g) (htarget : g.target ≤ signedMax)
    (hsize : g.pool.size ≤ unsignedMax) (hslots : 0 < w.slots)
    (hi : i < g.pool.size) (hroom : w.total + g.pool.value i ≤ g.highest) :
    g.pool.take? w i = some (g.pool.take w i) := by
  have hvalue := g.pool.value_nonneg i
  have htotal := hw.total_nonneg
  have hword : Signed.word? (w.total + g.pool.value i) =
      some (w.total + g.pool.value i) :=
    Signed.word?_of_nonneg (by omega) (hroom.trans (Goal.highest_le htarget))
  have hcount : Unsigned.sub? g.pool.inputLimit (w.taken.length + 1) =
      some (w.slots - 1) := by
    have hsum := hw.slots_add
    rw [Unsigned.sub?_of_le (by omega)]
    congr 1
    omega
  rw [take?, getElem?_candidates hi, Option.bind_eq_bind, Option.bind_some]
  rw [← value, hword, hcount, Unsigned.word?_of_le (by omega)]
  rfl

end Pool

theorem Walk.offer?_eq {p : Pool} {w : Walk} (htotal : 0 ≤ w.total)
    {first last : ℕ} (hle : first ≤ last) (hlast : last ≤ p.size) :
    w.offer? p.tails first last = some (w.offer first last) := by
  have hanti := Pool.tails_anti hle hlast
  have hmin := Pool.tails_nonneg hlast
  have hmax := Pool.tails_le (hle.trans hlast)
  have hdifference : Signed.word? (p.tails.getD first 0 - p.tails.getD last 0) =
      some (p.tails.getD first 0 - p.tails.getD last 0) :=
    Signed.word?_of_nonneg (by omega) (by omega)
  have hworth : 0 ≤ w.total + (p.tails.getD first 0 - p.tails.getD last 0) := by
    omega
  rw [offer?, Pool.getElem?_tails (hle.trans hlast), Pool.getElem?_tails hlast]
  simp only [Option.bind_eq_bind, Option.bind_some, hdifference,
    Signed.word?_add hworth]

namespace Goal

variable {g : Goal} {w : Walk}

theorem overshoot?_eq (hw : w.Valid g) :
    g.overshoot? g.pool.tails w (g.firstFit w) = some (g.overshoot w) := by
  rw [overshoot?, overshoot]
  by_cases hjump : g.allowsOvershoot = true ∧ w.next < g.firstFit w
  · have hlast := (firstFit_spec hw).2.1
    rw [if_pos hjump, if_pos hjump, Unsigned.sub?_of_le (by omega)]
    simp only [Option.bind_eq_bind, Option.bind_some,
      Walk.offer?_eq hw.total_nonneg (Nat.sub_le _ _) hlast]
  · rw [if_neg hjump, if_neg hjump]

theorem topUp?_eq (hw : w.Valid g) (hsize : g.pool.size ≤ unsignedMax) :
    g.topUp? g.pool.tails w (g.firstFit w) = some (g.topUp w) := by
  have hfits := (firstFit_spec hw).2.1
  rw [topUp?, hw.sub?_length, Unsigned.sub?_of_le hfits]
  simp only [Option.bind_eq_bind, Option.bind_some]
  rw [Unsigned.word?_of_le (by omega), Option.bind_some,
    Walk.offer?_eq hw.total_nonneg (by omega) (by omega), topUp]

/-- From a valid walk a turn in words is the turn. -/
theorem turn?_eq (hw : w.Valid g) (htarget : g.target ≤ signedMax)
    (hsize : g.pool.size ≤ unsignedMax) :
    g.turn? g.pool.tails w = some (g.turn g.pool.tails w) := by
  obtain ⟨hnext, hfits, -, hroom⟩ := firstFit_spec hw
  have hretreat := Pool.retreat?_eq hw htarget hsize
  have hreach : 0 ≤ w.total + g.pool.tails.getD (g.firstFit w) 0 :=
    add_nonneg hw.total_nonneg (Pool.tails_nonneg hfits)
  have hblocked_iff : g.pool.inputLimit ≤ w.taken.length ∨
      g.pool.size ≤ w.next ↔
      w.slots = 0 ∨ g.pool.size ≤ w.next :=
        or_congr_left hw.inputLimit_le_length_iff
  rw [turn?, turn_eq]
  by_cases hblocked : w.slots = 0 ∨ g.pool.size ≤ w.next
  · rw [if_pos (hblocked_iff.mpr hblocked), if_pos hblocked, hretreat]
    rfl
  rw [if_neg (mt hblocked_iff.mp hblocked), if_neg hblocked,
    hw.word?_room htarget, Option.bind_eq_bind, Option.bind_some, ← firstFit,
    Unsigned.word?_of_le (hfits.trans hsize)]
  simp only [Option.bind_eq_bind, Option.bind_some, overshoot?_eq hw]
  by_cases hfit : g.pool.size ≤ g.firstFit w
  · rw [if_pos hfit, if_pos hfit, hretreat, Option.bind_some]
  have hfit' : g.firstFit w < g.pool.size := not_le.mp hfit
  rw [if_neg hfit, if_neg hfit, Pool.getElem?_tails hfits, Option.bind_some,
    Signed.word?_add hreach, Option.bind_some]
  by_cases hlow :
    g.lowest ≤ Signed.add w.total (g.pool.tails.getD (g.firstFit w) 0)
  · have hslots : 0 < w.slots := by omega
    have htaken := Pool.take?_eq hw htarget hsize hslots hfit' (hroom hfit')
    rw [if_pos hlow, if_pos hlow, htaken, Option.bind_some]
    by_cases hmatch : g.isMatch (g.pool.take w (g.firstFit w)).total = true
    · rw [if_pos hmatch, if_pos hmatch]
      rfl
    · have hmiss := Bool.eq_false_iff.mpr hmatch
      have hw' := valid_take hw hslots hfit' hmiss
      rw [if_neg hmatch, if_neg hmatch,
        Walk.offer?_eq hw'.total_nonneg (le_refl _) hw'.next_le]
      rfl
  · rw [if_neg hlow, if_neg hlow, topUp?_eq hw hsize, Option.bind_some,
      hretreat, Option.bind_some]

/-! ## Whole searches -/

theorem explore?_eq (htarget : g.target ≤ signedMax)
    (hsize : g.pool.size ≤ unsignedMax) (stops : ℕ → Bool) (budget : ℕ) :
    ∀ {done : ℕ} {w : Walk} {record : Option Selection}, w.Valid g →
      done + budget ≤ unsignedMax →
      g.explore? g.pool.tails stops budget done w record =
        some (g.explore g.pool.tails stops budget done w record) := by
  induction budget with
  | zero => exact fun _ _ => rfl
  | succ budget ih =>
      intro done w record hw hdone
      rw [explore?, explore]
      by_cases hstop : stops done = true
      · rw [if_pos hstop, if_pos hstop]
      · rw [if_neg hstop, if_neg hstop, Unsigned.word?_of_le (by omega),
          turn?_eq hw htarget hsize]
        simp only [Option.bind_eq_bind, Option.bind_some]
        cases hmove : (g.turn g.pool.tails w).move with
        | found taken => rfl
        | finished => rfl
        | onward w' =>
            exact ih ((g.turn_cases g.pool.tails w).valid hw hmove) (by omega)

end Goal

/-- What holds of every walk that a search for `g` comes to and of the turn made
there: there is room, what is taken fits it, and the offers range over positions
of the pool. -/
structure Walk.Bounded (g : Goal) (w : Walk) : Prop extends w.Valid g where
  length_le : w.taken.length ≤ g.pool.inputLimit
  total_nonneg : 0 ≤ w.total
  room_pos : 1 ≤ g.highest - w.total
  room_le : g.highest - w.total ≤ signedMax
  take_le : g.firstFit w < g.pool.size →
    (g.pool.take w (g.firstFit w)).total ≤ g.highest
  first_le : ∀ o ∈ (g.turn g.pool.tails w).offers, o.first ≤ o.last
  last_le : ∀ o ∈ (g.turn g.pool.tails w).offers, o.last ≤ g.pool.size
  lt_size : ∀ o ∈ (g.turn g.pool.tails w).offers, ∀ i ∈ o.positions,
    i < g.pool.size

theorem Walk.Valid.bounded {g : Goal} {w : Walk} (hw : w.Valid g)
    (htarget : g.target ≤ signedMax) : w.Bounded g := by
  have hsound := (g.turn_cases g.pool.tails w).sound_offers hw
  have hslots := hw.slots_add
  exact {
    hw with
    length_le := by omega
    total_nonneg := hw.total_nonneg
    room_pos := hw.room_pos htarget
    room_le := hw.room_le htarget
    take_le := (Goal.firstFit_spec hw).2.2.2
    first_le := fun o ho => (hsound o ho).first_le
    last_le := fun o ho => (hsound o ho).last_le
    lt_size := fun o ho => (hsound o ho).choice.lt_size }

namespace Goal

variable {g : Goal}

/-- However large the values of a pool are, the band lies between one and the
ceiling, the totals of the tails descend to zero from at most the ceiling, every
walk of a search is bounded, the turn made there is the turn in words, and the
whole search comes to the same report in words. -/
theorem search_in_words (htarget : g.target ≤ signedMax)
    (hsize : g.pool.size < unsignedMax) {limits : Limits}
    (hlimits : limits.iterations ≤ unsignedMax) (signal : ℕ → Bool) :
    (1 ≤ g.lowest ∧ g.lowest ≤ g.highest ∧ g.highest ≤ signedMax) ∧
      (∀ i j, i ≤ j → j ≤ g.pool.size →
        0 ≤ g.pool.tails.getD j 0 ∧
          g.pool.tails.getD j 0 ≤ g.pool.tails.getD i 0 ∧
          g.pool.tails.getD i 0 ≤ signedMax) ∧
      (∀ n, ∀ w ∈ g.path g.pool.tails n (.start g.pool),
        w.Bounded g ∧ g.turn? g.pool.tails w = some (g.turn g.pool.tails w)) ∧
      g.search? limits signal = some (g.search limits signal) := by
  refine ⟨⟨g.lowest_pos, lowest_le_highest htarget, highest_le htarget⟩, ?_, ?_,
    ?_⟩
  · intro i j hij hj
    exact ⟨Pool.tails_nonneg hj, Pool.tails_anti hij hj,
      Pool.tails_le (hij.trans hj)⟩
  · intro n w hmem
    have hw := valid_of_mem_path n g.valid_start w hmem
    exact ⟨hw.bounded htarget, turn?_eq hw htarget hsize.le⟩
  · rw [search?, Unsigned.word?_of_le hsize, search]
    exact explore?_eq htarget hsize.le _ _ g.valid_start (by omega)

/-- A goal for the ceiling itself, over a coin that is worth one less and two
coins that are worth half of it each. -/
def ofLargestCoins : Goal where
  side := .less
  pool := {
    target := 9223372036854775807
    candidates :=
      #[⟨9223372036854775806, 9⟩, ⟨4611686018427387904, 5⟩,
        ⟨4611686018427387903, 4⟩]
    inputLimit := 2
    target_pos := by decide
    inputLimit_pos := Nat.two_pos
    value_pos := by decide
    descending := by decide }
  tolerance := 0
  percent := 50

/-- The search takes the first coin, gives it up for the other two and has used
all the room there is in a word. -/
theorem search_in_words_of_largest_coins :
    ofLargestCoins.target ≤ signedMax ∧ ofLargestCoins.pool.size < unsignedMax ∧
      (⟨100, 1⟩ : Limits).iterations ≤ unsignedMax ∧
      ofLargestCoins.search? ⟨100, 1⟩ (fun _ => false) =
        some ⟨.matched,
          some ⟨[1, 2], [4611686018427387904, 4611686018427387903],
            9223372036854775807, 9⟩,
          some ⟨[0], [9223372036854775806], 9223372036854775806, 9⟩, 4⟩ := by
  have htarget : ofLargestCoins.target ≤ signedMax := by decide
  have hsize : ofLargestCoins.pool.size < unsignedMax := by decide
  have hlimits : (⟨100, 1⟩ : Limits).iterations ≤ unsignedMax := by decide
  have hspec := search_in_words htarget hsize hlimits fun _ => false
  have hreport : ofLargestCoins.search ⟨100, 1⟩ (fun _ => false) =
      ⟨.matched,
        some ⟨[1, 2], [4611686018427387904, 4611686018427387903],
          9223372036854775807, 9⟩,
        some ⟨[0], [9223372036854775806], 9223372036854775806, 9⟩, 4⟩ := by
    decide
  exact ⟨htarget, hsize, hlimits, hspec.2.2.2.trans (congrArg some hreport)⟩

end Goal

end ExactSpend
