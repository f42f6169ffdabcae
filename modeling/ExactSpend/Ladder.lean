import ExactSpend.Search

/-!
# Ladders of tolerances

A ladder repeats a search with one tolerance after the other until one search
finds a match.  Tolerances are drawn one at a time, so the answer tells how
many of them were drawn.
-/

namespace ExactSpend

/-- The tolerance that led to a match, the match, and the tolerances drawn. -/
structure Climb where
  found : Option (Nat × Selection)
  drawn : Nat
deriving DecidableEq, Repr

namespace Climb

/-- Climbs from the `drawn`-th tolerance on.  The signal tells whether the
search is cancelled once so many tolerances have been drawn. -/
def onward (settings : Settings) (side : Side) (pool : Pool)
    (signal : Nat → Bool) :
    (drawn : Nat) → List Nat → Climb
  | drawn, [] => ⟨none, drawn⟩
  | drawn, tolerance :: rest =>
    let drawn := drawn + 1
    if signal drawn then ⟨none, drawn⟩
    else
      let goal := Goal.ofSettings settings side pool tolerance
      match (goal.search settings.limits fun _ => signal drawn).found with
      | some s => ⟨some (tolerance, s), drawn⟩
      | none => onward settings side pool signal drawn rest

/-- Climbs a list of tolerances from its first. -/
def climb (settings : Settings) (side : Side) (pool : Pool)
    (signal : Nat → Bool) (tolerances : List Nat) : Climb :=
  onward settings side pool signal 0 tolerances

end Climb

end ExactSpend
