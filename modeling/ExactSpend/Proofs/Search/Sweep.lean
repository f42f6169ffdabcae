import ExactSpend.Proofs.Search.Invariant
import ExactSpend.Proofs.Search.Order

/-!
# What a search has passed

A search visits sets of positions in lexicographic order.  At every walk there
is a least list it has not passed; each turn moves this frontier upwards.  If a
turn can account for the lists it passes over, then all lists before the
frontier are accounted for.  The skip over equal candidates needs no account
of its own: a list it passes over has a twin before the frontier.
-/

namespace ExactSpend

/-- The least list of positions that a search has not passed at a walk. -/
def Walk.frontier (w : Walk) : List ℕ :=
  w.taken.reverse ++ [w.next]

namespace Pool

variable {p : Pool} {Done : List ℕ → Prop}

/-- `Done` holds of every set of positions that a search has passed. -/
def Swept (p : Pool) (Done : List ℕ → Prop) (w : Walk) : Prop :=
  ∀ l, p.IsChoice l → l < w.frontier → Done l

/-- `Done` does not tell equal candidates apart. -/
def Exchangeable (p : Pool) (Done : List ℕ → Prop) : Prop :=
  ∀ front i j tail, p.candidate i = p.candidate j →
    Done (front ++ i :: tail) → Done (front ++ j :: tail)

/-- `Done` holds of every set of positions that a move leaves behind. -/
def Covered (p : Pool) (Done : List ℕ → Prop) : Move → Prop
  | .onward w => p.Swept Done w
  | .found taken => ∀ l, p.IsChoice l → l < taken.reverse → Done l
  | .finished => ∀ l, p.IsChoice l → Done l

/-- `Done` holds of every set that extends a walk by open positions only. -/
def ClosedBelow (p : Pool) (Done : List ℕ → Prop) (w : Walk) : Prop :=
  ∀ j tail, p.IsChoice (w.taken.reverse ++ j :: tail) → w.next ≤ j →
    Done (w.taken.reverse ++ j :: tail)

theorem swept_start (hnil : Done []) : p.Swept Done (.start p) := by
  intro l _ hlt
  rcases lt_singleton_cases hlt with rfl | ⟨m, tail, -, hm⟩
  · exact hnil
  · exact absurd hm (Nat.not_lt_zero m)

/-- A position may be exchanged for an earlier one behind the same front. -/
theorem IsChoice.exchange {front tail : List ℕ} {i j : ℕ}
    (h : p.IsChoice (front ++ j :: tail)) (hfront : ∀ k ∈ front, k < i)
    (hij : i < j) :
    p.IsChoice (front ++ i :: tail) := by
  obtain ⟨hinc, hsize, hlen⟩ := h
  rw [List.pairwise_append, List.pairwise_cons] at hinc
  obtain ⟨hincFront, ⟨hj, hincTail⟩, hcross⟩ := hinc
  refine ⟨?_, ?_, by simpa using hlen⟩
  · rw [List.pairwise_append, List.pairwise_cons]
    refine ⟨hincFront, ⟨fun k hk => hij.trans (hj k hk), hincTail⟩, ?_⟩
    intro k hk m hm
    rcases List.mem_cons.mp hm with rfl | hm
    · exact hfront k hk
    · exact hcross k hk m (by simp [hm])
  · intro k hk
    rcases List.mem_append.mp hk with hk | hk
    · exact hsize k (by simp [hk])
    · rcases List.mem_cons.mp hk with rfl | hk
      · exact hij.trans (hsize j (by simp))
      · exact hsize k (by simp [hk])

/-- Taking position `f` passes over the lists that go on with an earlier open
position, and over the positions taken themselves. -/
theorem swept_take {w : Walk} {f : ℕ} (hswept : p.Swept Done w)
    (hjump : ∀ j tail, p.IsChoice (w.taken.reverse ++ j :: tail) →
      w.next ≤ j → j < f → Done (w.taken.reverse ++ j :: tail))
    (htaken : Done (w.taken.reverse ++ [f])) : p.Swept Done (p.take w f) := by
  intro l hl hlt
  by_cases hbefore : l < w.frontier
  · exact hswept l hl hbefore
  · have hlt' : l < w.taken.reverse ++ [f, f + 1] := by
      simpa [Walk.frontier, Pool.take] using hlt
    obtain ⟨rest, rfl, hge, hrest⟩ :=
      exists_append_of_between (not_lt.mp hbefore) hlt'
    obtain ⟨m, tail, rfl, hm⟩ := cons_le_cases hge
    have hnext : w.next ≤ m := by omega
    rcases List.cons_lt_cons_iff.mp hrest with hmf | ⟨rfl, htail⟩
    · exact hjump m tail hl hnext hmf
    · rcases lt_singleton_cases htail with rfl | ⟨k, tail', rfl, hk⟩
      · exact htaken
      · have hinc := (List.pairwise_append.mp hl.increasing).2.1
        have hmk : m < k := (List.pairwise_cons.mp hinc).1 k (by simp)
        omega

/-- Giving up a position passes over the rest of its lists and over the lists
that go on with an equal candidate instead; these have a twin that goes on
with the position given up. -/
theorem swept_retreat {g : Goal} {w w' : Walk} (hw : w.Valid g)
    (hswept : g.pool.Swept Done w) (hexch : g.pool.Exchangeable Done)
    (hclosed : g.pool.ClosedBelow Done w) (h : g.pool.retreat w = .onward w') :
    g.pool.Swept Done w' := by
  obtain ⟨i, rest, htaken, rfl⟩ := Goal.retreat_eq_onward h
  have hfrontier : w.frontier = rest.reverse ++ [i, w.next] := by
    simp [Walk.frontier, htaken]
  have hopen : ∀ tail, g.pool.IsChoice (rest.reverse ++ i :: tail) →
      Done (rest.reverse ++ i :: tail) := by
    intro tail hl
    by_cases hbefore : rest.reverse ++ i :: tail < w.frontier
    · exact hswept _ hl hbefore
    · have hge : [w.next] ≤ tail := by
        rw [hfrontier] at hbefore
        refine not_lt.mp fun htail => hbefore ?_
        exact List.append_left_lt
          (List.cons_lt_cons_iff.mpr (Or.inr ⟨rfl, htail⟩))
      obtain ⟨m, tail', rfl, hm⟩ := cons_le_cases hge
      have hlist :
          rest.reverse ++ i :: m :: tail' = w.taken.reverse ++ m :: tail' := by
        simp [htaken]
      rw [hlist] at hl ⊢
      exact hclosed m tail' hl (by omega)
  intro l hl hlt
  have hlt' : l < rest.reverse ++
      [g.pool.skipEqual i (g.pool.size - (i + 1)) (i + 1)] := hlt
  by_cases hbefore : l < w.frontier
  · exact hswept l hl hbefore
  · rw [hfrontier] at hbefore
    obtain ⟨r, rfl, hge, hr⟩ :=
      exists_append_of_between (not_lt.mp hbefore) hlt'
    obtain ⟨m, tail, rfl, hm⟩ := cons_le_cases hge
    rcases hm with him | ⟨rfl, -⟩
    · have hmk : m < g.pool.skipEqual i (g.pool.size - (i + 1)) (i + 1) := by
        rcases List.cons_lt_cons_iff.mp hr with hmk | ⟨-, hnil⟩
        · exact hmk
        · exact absurd hnil (List.not_lt_nil tail)
      have heq : g.pool.candidate m = g.pool.candidate i :=
        (skipEqual_spec i _ _).2.2 m him hmk
      have hfront : ∀ k ∈ rest.reverse, k < i := by
        have hdesc := List.pairwise_cons.mp (htaken ▸ hw.descending)
        simpa using hdesc.1
      exact hexch _ i m tail heq.symm (hopen tail (hl.exchange hfront him))
    · exact hopen tail hl

theorem covered_retreat {g : Goal} {w : Walk} (hw : w.Valid g)
    (hswept : g.pool.Swept Done w) (hexch : g.pool.Exchangeable Done)
    (hclosed : g.pool.ClosedBelow Done w) :
    g.pool.Covered Done (g.pool.retreat w) := by
  cases hretreat : g.pool.retreat w with
  | onward w' => exact swept_retreat hw hswept hexch hclosed hretreat
  | found taken => exact absurd hretreat (Goal.retreat_ne_found w)
  | finished =>
      have hnil : w.taken = [] := by
        unfold retreat at hretreat
        split at hretreat
        · assumption
        · simp at hretreat
      intro l hl
      by_cases hbefore : l < w.frontier
      · exact hswept l hl hbefore
      · have hge : [w.next] ≤ l := by
          simpa [Walk.frontier, hnil] using hbefore
        obtain ⟨m, tail, rfl, hm⟩ := cons_le_cases hge
        simpa [hnil] using hclosed m tail (by simpa [hnil] using hl) (by omega)

end Pool

namespace Goal

variable {g : Goal} {tails : Array ℤ} {w : Walk} {Done : List ℕ → Prop}

theorem closedBelow_of_blocked (hw : w.Valid g)
    (hblocked : w.slots = 0 ∨ g.pool.size ≤ w.next) :
    g.pool.ClosedBelow Done w := by
  intro j tail hl hj
  have hsize : j < g.pool.size := hl.lt_size j (by simp)
  have hlen := hl.length_le
  have hslots := hw.slots_add
  simp only [List.length_append, List.length_reverse, List.length_cons] at hlen
  omega

/-! ## Sums of the lists that a turn passes over -/

theorem highest_lt_sum (hw : w.Valid g) {j : ℕ} (tail : List ℕ)
    (hj : w.next ≤ j) (hjump : j < g.firstFit w) :
    g.highest < g.pool.sum (w.taken.reverse ++ j :: tail) := by
  have hover := (firstFit_spec hw).2.2.1 j hj hjump
  have hrest := g.pool.sum_nonneg tail
  rw [sum_extension hw]
  omega

/-- Also when the stored total of a tail is cut off at the ceiling, a branch is
cut only if all of its tail does not reach the band. -/
theorem total_add_tailSum_lt (hw : w.Valid g) (htarget : g.target ≤ signedMax)
    (hfit : g.firstFit w < g.pool.size)
    (hreach :
      Signed.add w.total (g.pool.tails.getD (g.firstFit w) 0) < g.lowest) :
    w.total + g.pool.tailSum (g.firstFit w) < g.lowest := by
  have htotal : 0 ≤ w.total := hw.total_eq ▸ g.pool.sum_nonneg w.taken
  have hlowest := g.lowest_le_target
  rw [Pool.tails_getD hfit.le, Signed.add] at hreach
  omega

theorem le_of_mem_cons {j k : ℕ} {tail : List ℕ}
    (hinc : (j :: tail).Pairwise (· < ·))
    (hj : k ≤ j) : ∀ i ∈ j :: tail, k ≤ i := by
  intro i hi
  rcases List.mem_cons.mp hi with rfl | hi
  · exact hj
  · exact hj.trans ((List.pairwise_cons.mp hinc).1 i hi).le

theorem sum_lt_lowest (hw : w.Valid g)
    (hreach : w.total + g.pool.tailSum (g.firstFit w) < g.lowest)
    {j : ℕ} {tail : List ℕ}
    (hl : g.pool.IsChoice (w.taken.reverse ++ j :: tail))
    (hj : g.firstFit w ≤ j) :
    g.pool.sum (w.taken.reverse ++ j :: tail) < g.lowest := by
  have hinc := (List.pairwise_append.mp hl.increasing).2.1
  have htail : g.pool.sum (j :: tail) ≤ g.pool.tailSum (g.firstFit w) :=
    Pool.sum_le_tailSum hinc (le_of_mem_cons hinc hj) fun i hi =>
      hl.lt_size i (by simp [hi])
  rw [Pool.sum_append, Pool.sum_reverse, ← hw.total_eq]
  omega

theorem exchangeable_of_sum {R : ℤ → ℕ → Prop} :
    g.pool.Exchangeable fun l => R (g.pool.sum l) l.length := by
  intro front i j tail heq h
  have hvalue : g.pool.value j = g.pool.value i := by
    rw [Pool.value, Pool.value, heq]
  simpa [hvalue] using h

/-! ## Turns -/

/-- The lists a turn passes over are those that overshoot with the next
position, those of a branch that is cut, and the positions taken.  A turn that
accounts for these leaves only lists behind that are accounted for. -/
theorem TurnsTo.covered {t : Turn} (ht : g.TurnsTo tails w t) (hw : w.Valid g)
    (hswept : g.pool.Swept Done w) (hexch : g.pool.Exchangeable Done)
    (hover : g.overshoot w ⊆ t.offers →
      ∀ j tail, g.pool.IsChoice (w.taken.reverse ++ j :: tail) → w.next ≤ j →
        j < g.firstFit w → Done (w.taken.reverse ++ j :: tail))
    (hcut : g.topUp w ∈ t.offers → 0 < w.slots → g.firstFit w < g.pool.size →
      Signed.add w.total (tails.getD (g.firstFit w) 0) < g.lowest →
      ∀ j tail, g.pool.IsChoice (w.taken.reverse ++ j :: tail) →
        g.firstFit w ≤ j → Done (w.taken.reverse ++ j :: tail))
    (htake :
      (g.pool.take w (g.firstFit w)).offer (g.firstFit w + 1)
          (g.firstFit w + 1) ∈ t.offers →
      0 < w.slots → g.firstFit w < g.pool.size →
      g.isMatch (g.pool.take w (g.firstFit w)).total = false →
      Done (w.taken.reverse ++ [g.firstFit w])) :
    g.pool.Covered Done t.move := by
  cases ht with
  | blocked hblocked =>
      exact Pool.covered_retreat hw hswept hexch
        (closedBelow_of_blocked hw hblocked)
  | overshooting _ _ hfit =>
      refine Pool.covered_retreat hw hswept hexch fun j tail hl hj => ?_
      have hsize : j < g.pool.size := hl.lt_size j (by simp)
      exact hover (List.Subset.refl _) j tail hl hj (lt_of_lt_of_le hsize hfit)
  | cut hslots _ hfit hreach =>
      refine Pool.covered_retreat hw hswept hexch fun j tail hl hj => ?_
      by_cases hjump : j < g.firstFit w
      · exact hover (List.subset_append_left _ _) j tail hl hj hjump
      · exact hcut (by simp) hslots hfit hreach j tail hl (not_lt.mp hjump)
  | matched =>
      intro l hl hlt
      by_cases hbefore : l < w.frontier
      · exact hswept l hl hbefore
      · have hlt' : l < w.taken.reverse ++ [g.firstFit w] := by simpa using hlt
        obtain ⟨rest, rfl, hge, hrest⟩ :=
          exists_append_of_between (not_lt.mp hbefore) hlt'
        obtain ⟨m, tail, rfl, hm⟩ := cons_le_cases hge
        rcases List.cons_lt_cons_iff.mp hrest with hjump | ⟨-, hnil⟩
        · exact hover (List.Subset.refl _) m tail hl (by omega) hjump
        · exact absurd hnil (List.not_lt_nil tail)
  | descended hslots _ hfit hmiss =>
      refine Pool.swept_take hswept (fun j tail hl hj hjump => ?_)
        (htake (by simp) hslots hfit hmiss)
      exact hover (List.subset_append_left _ _) j tail hl hj hjump

end Goal

end ExactSpend
