import ExactSpend.Bounded
import ExactSpend.Selection
import ExactSpend.Settings

/-!
# Goals

A goal asks for a selection whose sum lies in a band on one side of a pool's
target.  When no sum lies in the band, the goal ranks the sums it can live
with: those on its own side of the target, within a share of it.
-/

namespace ExactSpend

/-- What a search over a pool is after. -/
structure Goal where
  side : Side
  pool : Pool
  /-- The distance from the target that still counts as a match. -/
  tolerance : Nat
  /-- The share of the target that bounds fallback sums. -/
  percent : Nat

namespace Goal

/-- A goal whose fallback bound comes from the settings. -/
def ofSettings (settings : Settings) (side : Side) (pool : Pool)
    (tolerance : Nat) : Goal :=
  ⟨side, pool, tolerance, settings.fallbackPercent side⟩

/-- The amount to be reached. -/
def target (g : Goal) : Int :=
  g.pool.target

/-- The lower edge of the band.  It is never below one, so that an empty
selection is no match. -/
def lowest (g : Goal) : Int :=
  match g.side with
  | .more => g.target
  | .less => max (g.target - Signed.ofCount g.tolerance) 1

/-- The upper edge of the band. -/
def highest (g : Goal) : Int :=
  match g.side with
  | .more => Signed.add g.target (Signed.ofCount g.tolerance)
  | .less => g.target

/-- A sum inside the band is a match. -/
def isMatch (g : Goal) (sum : Int) : Bool :=
  g.lowest ≤ sum ∧ sum ≤ g.highest

/-- Sums beyond the band are of use only above the target. -/
def allowsOvershoot (g : Goal) : Bool :=
  g.side = .more

/-- A sum may serve as a fallback if it lies on the goal's side of the target
and does not pass the share of the target that bounds it. -/
def admits (g : Goal) (sum : Int) : Bool :=
  match g.side with
  | .more => g.target ≤ sum ∧ sum * 100 ≤ g.target * g.percent
  | .less => sum ≤ g.target ∧ g.target * g.percent ≤ sum * 100

/-- The distance of a sum from the target. -/
def distance (g : Goal) (sum : Int) : Nat :=
  (sum - g.target).natAbs

/-- The order among fallbacks: nearer to the target, then fewer inputs, then
lower cost. -/
def ranksBefore (g : Goal) (a b : Selection) : Bool :=
  g.distance a.sum < g.distance b.sum ∨
    g.distance a.sum = g.distance b.sum ∧
      (a.size < b.size ∨ a.size = b.size ∧ a.cost < b.cost)

/-- A selection replaces the record if it has inputs, may serve as a fallback
and ranks strictly before the record. -/
def improves (g : Goal) (s : Selection) (record : Option Selection) : Bool :=
  !s.isEmpty && g.admits s.sum &&
    match record with
    | none => true
    | some best => g.ranksBefore s best

end Goal

end ExactSpend
