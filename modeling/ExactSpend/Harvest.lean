import Std.Data.TreeSet
import ExactSpend.Plan

/-!
# Harvests

The searches of a plan report one after the other.  A harvest turns each
report into the subset of coins it picked, drops what was cancelled, and keeps
every subset only when it comes up first.  The same coins count as the same
subset in whatever order they were picked.
-/

namespace ExactSpend

/-- A search with its report; a search that failed has none. -/
structure Arrival where
  task : Task
  report : Option Report

/-- The indices of the coins at some positions of the search's pool. -/
def Task.coinsAt (t : Task) (positions : List Nat) : List Nat :=
  positions.map (t.sources.getD · 0)

/-- The coins that a search picked.  A search that was cancelled picked none,
one that ran out of iterations keeps its best effort. -/
def Arrival.subset? (a : Arrival) : Option (List Nat) := do
  let report ← a.report
  if report.ending = .cancelled then none
  else return a.task.coinsAt (← report.outcome.selection?).positions

/-- Goes through some sources of subsets and keeps the first `wanted` distinct
subsets that were not seen before.  No source is asked once these are found. -/
def gather (subset? : α → Option (List Nat)) :
    (wanted : Nat) → Std.TreeSet (List Nat) → List α → List (List Nat)
  | 0, _, _ => []
  | _, _, [] => []
  | wanted + 1, seen, a :: rest =>
    match subset? a with
    | none => gather subset? (wanted + 1) seen rest
    | some subset =>
      let key := subset.mergeSort
      if seen.contains key then gather subset? (wanted + 1) seen rest
      else subset :: gather subset? wanted (seen.insert key) rest

/-- The distinct subsets of a list of arrivals, in order. -/
def harvest (arrivals : List Arrival) : List (List Nat) :=
  gather Arrival.subset? arrivals.length ∅ arrivals

/-- What can go wrong while the searches run one after the other. -/
structure Disturbance where
  /-- The signal is raised before the first search. -/
  cancelledBefore : Bool := false
  /-- The signal is raised when so many searches have finished; never if
  zero. -/
  cancelAfter : Nat := 0
  /-- Searches from this side fail when they finish. -/
  failing : Option Side := none
deriving DecidableEq, Repr

namespace Disturbance

/-- Whether the signal is raised once so many searches have finished. -/
def isCancelled (d : Disturbance) (finished : Nat) : Bool :=
  d.cancelledBefore || (0 < d.cancelAfter && d.cancelAfter ≤ finished)

/-- The report of a search that starts after so many others have finished. -/
def report (d : Disturbance) (limits : Limits) (finished : Nat) (t : Task) :
    Report :=
  t.goal.search limits fun _ => d.isCancelled finished

/-- The arrival of such a search. -/
def arrival (d : Disturbance) (limits : Limits) (finished : Nat) (t : Task) :
    Arrival :=
  ⟨t, if d.failing = some t.goal.side then none
    else some (d.report limits finished t)⟩

/-- The arrivals of a whole plan, searched in order. -/
def arrivals (d : Disturbance) (limits : Limits) (tasks : List Task) :
    List Arrival :=
  tasks.mapIdx fun i t => d.arrival limits i t

/-- The events of a whole plan, searched in order. -/
def events (d : Disturbance) (limits : Limits) (tasks : List Task) :
    List Event :=
  (tasks.mapIdx fun i t => (d.report limits i t).events t.label).flatten

end Disturbance

namespace Request

/-- The distinct subsets that a request's searches pick. -/
def subsets (r : Request) (d : Disturbance) : List (List Nat) :=
  harvest (d.arrivals r.settings.limits r.plan.tasks)

/-- The first `wanted` of these.  No search is run beyond the one that found
the last of them. -/
def firstSubsets (r : Request) (d : Disturbance) (wanted : Nat) :
    List (List Nat) :=
  gather (fun (t, i) => (d.arrival r.settings.limits i t).subset?) wanted ∅
    r.plan.tasks.zipIdx

end Request

end ExactSpend
