import ExactSpend.Coin
import ExactSpend.Notice

/-!
# Plans

A request asks for subsets of some coins that pay an amount without change.
Its plan is the list of searches worth running: for every script that locks
enough, one from each side over the coins of that script, and at the end one
from each side over all coins.  Groups come in ascending order of their total,
equal totals in the order of their scripts, so that the plan does not depend
on the order in which the groups were formed.
-/

namespace ExactSpend

/-- Coins to choose from, the payment, and what limits the choice. -/
structure Request where
  coins : Array Coin
  rate : FeeRate
  payment : Payment
  inputLimit : Nat
  settings : Settings

/-- A search of a plan: a goal over the usable coins of a group, and for each
position of its pool the index of the coin that stands there. -/
structure Task where
  group : Group
  goal : Goal
  sources : Array Nat

/-- The label of the search. -/
def Task.label (t : Task) : Label :=
  ⟨t.group, t.goal.side, t.goal.pool.size⟩

/-- The searches of a request in their order, and what there is to tell. -/
structure Plan where
  tasks : List Task
  notices : List Notice

/-- The coins of one script. -/
structure ScriptGroup where
  script : Script
  /-- The indices of the coins, ascending. -/
  members : List Nat
  /-- The total amount of the coins, at most `unsignedMax`. -/
  total : Nat
deriving DecidableEq, Repr

/-- Smaller totals come first, equal totals in the order of the scripts. -/
def ScriptGroup.precedes (a b : ScriptGroup) : Bool :=
  a.total < b.total ∨ a.total = b.total ∧ (compare a.script b.script).isLE

namespace Request

/-- The effective value that funds the payment. -/
def target (r : Request) : Int :=
  r.payment.target r.rate

/-- The amount of the coin at an index. -/
def amountAt (r : Request) (i : Nat) : Nat :=
  (r.coins[i]?.map (·.amount)).getD 0

/-- The indices of the coins by their script, latest first. -/
def membersByScript (r : Request) : Std.TreeMap Script (List Nat) :=
  r.coins.toList.zipIdx.foldl
    (fun groups (coin, i) =>
      groups.insert coin.script (i :: groups.getD coin.script []))
    ∅

/-- The groups of coins that share a script, one for every script. -/
def scriptGroups (r : Request) : List ScriptGroup :=
  r.membersByScript.toList.map fun (script, members) =>
    let members := members.reverse
    ⟨script, members,
      members.foldl (fun total i => Unsigned.add total (r.amountAt i)) 0⟩

/-- The coins among some indices that are worth more than their spend fee, as
candidates with the index they came from. -/
def usable (r : Request) (members : List Nat) : List (Candidate × Nat) :=
  members.filterMap fun i => do
    let coin ← r.coins[i]?
    let value := coin.effectiveValue r.rate
    if 0 < value then
      return (⟨value, Signed.ofCount (coin.inputCost r.rate)⟩, i)
    else none

/-- The pool of a group's usable coins with the coin index of every position. -/
def pool (r : Request) (members : List Nat) :
    Except Pool.Fault (Pool × Array Nat) := do
  let usable := r.usable members
  let (pool, order) ← Pool.sorted r.target (usable.map (·.1)) r.inputLimit
  let indices := (usable.map (·.2)).toArray
  return (pool, (order.map (indices.getD · 0)).toArray)

/-- A search from each side over a group, or none if no coin of it is usable. -/
def tasksFor (r : Request) (group : Group) (members : List Nat) : Plan :=
  if (r.usable members).isEmpty then ⟨[], []⟩
  else
    match r.pool members with
    | .error fault => ⟨[], [.groupRefused group fault]⟩
    | .ok (pool, sources) =>
      let task (side : Side) (tolerance : Nat) : Task :=
        ⟨group, .ofSettings r.settings side pool tolerance, sources⟩
      ⟨[task .more (r.settings.moreTolerance.getD 0),
        task .less r.settings.lessTolerance], []⟩

/-- The plan made from the script groups in the order given.  Groups that hold
too little are told and left out; a group that holds every coin is searched
as the whole. -/
def planOf (r : Request) (groups : List ScriptGroup) : Plan :=
  let worthwhile (g : ScriptGroup) := r.settings.isWorthwhile g.total r.target
  let skipped := groups.filter (!worthwhile ·)
  let kept := (groups.filter worthwhile).mergeSort ScriptGroup.precedes
  let parts :=
    (kept.filter (·.members.length ≠ r.coins.size)).map
        (fun g => r.tasksFor (.script g.script) g.members)
      ++ [r.tasksFor .allCoins (List.range r.coins.size)]
  ⟨parts.flatMap Plan.tasks,
    skipped.map (fun g => .groupSkipped g.script g.total r.target)
      ++ parts.flatMap Plan.notices⟩

/-- The plan of a request.  There is nothing to search without coins, without
a positive target or when no input is allowed. -/
def plan (r : Request) : Plan :=
  if r.coins.isEmpty ∨ r.target ≤ 0 ∨ r.inputLimit = 0 then
    ⟨[], [.nothingToSearch r.coins.size r.target r.inputLimit]⟩
  else r.planOf r.scriptGroups

end Request

end ExactSpend
