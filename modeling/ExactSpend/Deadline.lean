import ExactSpend.Harvest

/-!
# Deadlines

Searches that run against a deadline may be cut off.  Time is counted in
iterations: a deadline of some milliseconds leaves every search an allowance
of iterations, and a search that would need more has not ended in time and
yields nothing.  A search that ended in time reports what it reports without
a deadline.
-/

namespace ExactSpend

/-- What arrived of a plan's searches before a deadline. -/
structure Delivery where
  arrivals : List Arrival
  /-- Whether every search ended in time. -/
  isComplete : Bool

namespace Deadline

/-- The iterations that a search is given per millisecond. -/
def pace : Nat := 10000

/-- The report of a search that ends within an allowance of iterations.
Without any allowance no search ends in time. -/
def report? (limits : Limits) (allowance : Nat) (t : Task) : Option Report :=
  let report :=
    t.goal.search ⟨min limits.iterations allowance, limits.checkInterval⟩
      fun _ => false
  if report.ending = .budgetSpent ∧
      (allowance < limits.iterations ∨ allowance = 0) then none
  else some report

/-- The searches that end within some milliseconds, in the order of the plan. -/
def deliver (limits : Limits) (milliseconds : Nat) (tasks : List Task) :
    Delivery :=
  let reports := tasks.map fun t => (t, report? limits (milliseconds * pace) t)
  { arrivals := reports.filterMap fun (t, report) =>
      report.map fun r => ⟨t, some r⟩
    isComplete := reports.all fun (_, report) => report.isSome }

end Deadline

end ExactSpend
