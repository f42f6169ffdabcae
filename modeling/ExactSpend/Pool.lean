/-!
# Pools of candidates

A pool is what a search looks at: a target, the candidates with their values
in descending order, and the number of candidates that may be taken.  A pool
that exists is well formed; the two ways to build one say what is wrong with
the data otherwise.
-/

namespace ExactSpend

/-- A candidate counts with its effective value and its spend fee. -/
structure Candidate where
  value : Int
  cost : Int
deriving DecidableEq, Inhabited, Repr

/-- Candidates in descending order of value, with a target to reach. -/
structure Pool where
  target : Int
  candidates : Array Candidate
  inputLimit : Nat
  target_pos : 0 < target
  inputLimit_pos : 0 < inputLimit
  value_pos : ∀ c ∈ candidates.toList, 0 < c.value
  descending : candidates.toList.Pairwise fun a b => b.value ≤ a.value

namespace Pool

/-- Why data make no pool. -/
inductive Fault
  | targetNotPositive (target : Int)
  | lengthsDiffer (values costs : Nat)
  | notDescending (position : Nat)
  | valueNotPositive (position : Nat) (value : Int)
  | noInputAllowed
deriving DecidableEq, Repr

/-- The report of a fault. -/
def Fault.message : Fault → String
  | targetNotPositive target =>
    "selection target must be positive, got " ++ toString target
  | lengthsDiffer values costs =>
    "candidate values (" ++ toString values ++ ") and costs (" ++ toString costs
      ++ ") differ in length"
  | notDescending position =>
    "candidate values are not in descending order at position " ++
      toString position
  | valueNotPositive position value =>
    "candidate value at position " ++ toString position ++ " is not positive ("
      ++ toString value ++ ")"
  | noInputAllowed => "maximum input count must be at least one"

/-- The number of candidates. -/
def size (p : Pool) : Nat :=
  p.candidates.size

/-- The candidate at a position; beyond the end one without value and cost. -/
def candidate (p : Pool) (i : Nat) : Candidate :=
  p.candidates.getD i ⟨0, 0⟩

/-- The value at a position. -/
def value (p : Pool) (i : Nat) : Int :=
  (p.candidate i).value

/-- The cost at a position. -/
def cost (p : Pool) (i : Nat) : Int :=
  (p.candidate i).cost

/-- The first position whose value exceeds the one before it. -/
def firstRise? : List Candidate → Option Nat
  | a :: b :: rest =>
    if a.value < b.value then some 1 else (firstRise? (b :: rest)).map (· + 1)
  | _ => none

theorem pairwise_of_firstRise?_eq_none {cs : List Candidate}
    (h : firstRise? cs = none) :
    cs.Pairwise fun a b => b.value ≤ a.value := by
  induction cs with
  | nil => simp
  | cons a rest ih =>
    cases rest with
    | nil => simp
    | cons b rest =>
      simp only [firstRise?] at h
      split at h
      · simp at h
      · have hrest := ih (by simpa using h)
        refine List.pairwise_cons.mpr ⟨fun c hc => ?_, hrest⟩
        rcases List.mem_cons.mp hc with rfl | hc
        · omega
        · have := (List.pairwise_cons.mp hrest).1 c hc
          omega

theorem firstRise?_eq_none {cs : List Candidate}
    (h : cs.Pairwise fun a b => b.value ≤ a.value) : firstRise? cs = none := by
  induction cs with
  | nil => rfl
  | cons a rest ih =>
    cases rest with
    | nil => rfl
    | cons b rest =>
      have hab := (List.pairwise_cons.mp h).1 b (by simp)
      rw [firstRise?, if_neg (by omega), ih (List.pairwise_cons.mp h).2]
      rfl

/-- The first fault of some data: the target is checked first, then the input
limit, the values and their order. -/
def fault? (target : Int) (candidates : List Candidate) (inputLimit : Nat) :
    Option Fault :=
  if target ≤ 0 then some (.targetNotPositive target)
  else if inputLimit = 0 then some .noInputAllowed
  else
    match candidates.findIdx? (·.value ≤ 0) with
    | some i => some (.valueNotPositive i (candidates.getD i ⟨0, 0⟩).value)
    | none => (firstRise? candidates).map .notDescending

/-- Data without a fault are what a pool requires. -/
theorem fault?_eq_none_iff {target : Int} {candidates : List Candidate}
    {inputLimit : Nat} :
    fault? target candidates inputLimit = none ↔
      0 < target ∧ 0 < inputLimit ∧ (∀ c ∈ candidates, 0 < c.value) ∧
        candidates.Pairwise fun a b => b.value ≤ a.value := by
  unfold fault?
  split
  · simp
    omega
  · split
    · simp
      omega
    · split
      · rename_i i hi
        simp only [reduceCtorEq, false_iff, not_and]
        intro _ _ hpos
        obtain ⟨hlt, hle, _⟩ := List.findIdx?_eq_some_iff_getElem.mp hi
        have := hpos _ (List.getElem_mem hlt)
        simp only [decide_eq_true_eq] at hle
        omega
      · rename_i hnone
        have hpos : ∀ c ∈ candidates, 0 < c.value := by
          simpa using List.findIdx?_eq_none_iff.mp hnone
        simp only [Option.map_eq_none_iff]
        constructor
        · exact fun h =>
            ⟨by omega, by omega, hpos, pairwise_of_firstRise?_eq_none h⟩
        · exact fun h => firstRise?_eq_none h.2.2.2

/-- A pool of candidates that already stand in descending order. -/
def ofCandidates (target : Int) (candidates : List Candidate)
    (inputLimit : Nat) :
    Except Fault Pool :=
  match h : fault? target candidates inputLimit with
  | some fault => .error fault
  | none =>
    .ok {
      target
      candidates := candidates.toArray
      inputLimit
      target_pos := (fault?_eq_none_iff.mp h).1
      inputLimit_pos := (fault?_eq_none_iff.mp h).2.1
      value_pos := by simpa using (fault?_eq_none_iff.mp h).2.2.1
      descending := by simpa using (fault?_eq_none_iff.mp h).2.2.2 }

/-- Building a pool fails exactly with the first fault of the data. -/
theorem ofCandidates_eq_error_iff {target : Int} {candidates : List Candidate}
    {inputLimit : Nat} {fault : Fault} :
    ofCandidates target candidates inputLimit = .error fault ↔
      fault? target candidates inputLimit = some fault := by
  unfold ofCandidates
  split <;> simp_all

/-- A pool from a column of values and a column of costs. -/
def ofColumns (target : Int) (values costs : List Int) (inputLimit : Nat) :
    Except Fault Pool :=
  if target ≤ 0 then .error (.targetNotPositive target)
  else if values.length ≠ costs.length then
    .error (.lengthsDiffer values.length costs.length)
  else ofCandidates target (List.zipWith Candidate.mk values costs) inputLimit

/-- Candidates paired with their places, in descending order of value; equal
values keep the order in which they came. -/
def ranked (candidates : List Candidate) : List (Candidate × Nat) :=
  candidates.zipIdx.mergeSort fun a b => decide (b.1.value ≤ a.1.value)

/-- Sorts candidates into a pool and tells which candidate each position
holds. -/
def sorted (target : Int) (candidates : List Candidate) (inputLimit : Nat) :
    Except Fault (Pool × List Nat) := do
  let order := ranked candidates
  let pool ← ofCandidates target (order.map (·.1)) inputLimit
  return (pool, order.map (·.2))

end Pool

end ExactSpend
