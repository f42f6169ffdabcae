import ExactSpend.Goal

/-!
# Branch and bound

A search walks the positions of a pool depth first and tries to take each
candidate before it leaves it out.  A branch ends where every further sum lies
outside the band.  The first sum inside the band ends the search; besides,
each turn offers sums worth remembering to a record of the best fallback.

The walk itself does not depend on the record: `Goal.turn` says where the walk
goes and what it offers, `Goal.explore` repeats turns and keeps the record.
-/

namespace ExactSpend

/-- A place in the search: the positions taken, latest first, their total, the
inputs still allowed and the first position that is still open. -/
structure Walk where
  taken : List Nat
  total : Int
  slots : Nat
  next : Nat
deriving DecidableEq, Repr

/-- A selection for the record: the positions taken and a range of further
ones. -/
structure Offer where
  taken : List Nat
  total : Int
  first : Nat
  last : Nat
deriving DecidableEq, Repr

/-- Where a turn leads. -/
inductive Move
  | found (taken : List Nat)
  | onward (walk : Walk)
  | finished
deriving DecidableEq, Repr

/-- What one iteration does. -/
structure Turn where
  offers : List Offer
  move : Move
deriving DecidableEq, Repr

/-- Why a search stopped. -/
inductive Ending
  | matched
  | exhausted
  | budgetSpent
  | cancelled
deriving DecidableEq, Repr

/-- What a search came to. -/
inductive Outcome
  | found (selection : Selection)
  | bestEffort (selection : Selection)
  | noMatch
deriving DecidableEq, Repr

/-- The selection of an outcome. -/
def Outcome.selection? : Outcome → Option Selection
  | found s => some s
  | bestEffort s => some s
  | noMatch => none

/-- Whether the outcome is a match. -/
def Outcome.isFound : Outcome → Bool
  | found _ => true
  | _ => false

/-- The end of a search: why it stopped, the match, the record of the best
fallback at that time, and the iterations used. -/
structure Report where
  ending : Ending
  found : Option Selection
  record : Option Selection
  iterations : Nat
deriving DecidableEq, Repr

/-- A match, else the record, else nothing. -/
def Report.outcome (r : Report) : Outcome :=
  match r.found, r.record with
  | some s, _ => .found s
  | none, some s => .bestEffort s
  | none, none => .noMatch

/-- How long a search may run and how often it looks at the signal. -/
structure Limits where
  iterations : Nat
  checkInterval : Nat
deriving DecidableEq, Repr

/-- The limits of the settings. -/
def Settings.limits (s : Settings) : Limits :=
  ⟨s.maxIterations, s.checkInterval⟩

/-- Before an iteration the signal is read if the number of iterations done is
a multiple of the interval; an interval of zero acts as one. -/
def Limits.stops (l : Limits) (signal : Nat → Bool) (done : Nat) : Bool :=
  done % max l.checkInterval 1 == 0 && signal done

/-- The first index of a range at which a test holds, found by halving; the
test must hold from some index on.  `steps` bounds the halvings. -/
def bisect (test : Nat → Bool) : (steps lo hi : Nat) → Nat
  | 0, lo, _ => lo
  | steps + 1, lo, hi =>
    if hi ≤ lo then lo
    else
      let middle := (lo + hi) / 2
      if test middle then bisect test steps lo middle
      else bisect test steps (middle + 1) hi

namespace Pool

/-- The first position from `start` on whose value fits the room; the size of
the pool if there is none. -/
def firstFitting (p : Pool) (room : Int) (start : Nat) : Nat :=
  bisect (fun i => p.value i ≤ room) (p.size - start) start p.size

/-- The first of at most `steps` positions from `next` on that differs from
position `i` in value or cost. -/
def skipEqual (p : Pool) (i : Nat) : (steps next : Nat) → Nat
  | 0, next => next
  | steps + 1, next =>
    if p.candidate next = p.candidate i then p.skipEqual i steps (next + 1)
    else next

/-- Totals of all values from each position on, the last one zero, where `add`
forms the sums. -/
def tailsBy (add : Int → Int → Int) (p : Pool) : Array Int :=
  (p.candidates.toList.foldr
    (fun c tails => add (tails.headD 0) c.value :: tails) [0]).toArray

/-- Totals of all values from each position on, with sums kept below the
ceiling. -/
def tails (p : Pool) : Array Int :=
  p.tailsBy Signed.add

/-- Gives up the latest position and goes on behind the candidates equal to
it. -/
def retreat (p : Pool) (w : Walk) : Move :=
  match w.taken with
  | [] => .finished
  | i :: rest =>
    .onward ⟨rest, w.total - p.value i, w.slots + 1,
      p.skipEqual i (p.size - (i + 1)) (i + 1)⟩

/-- Takes a position. -/
def take (p : Pool) (w : Walk) (i : Nat) : Walk :=
  ⟨i :: w.taken, w.total + p.value i, w.slots - 1, i + 1⟩

end Pool

namespace Walk

/-- The positions taken and those from `first` up to `last`. -/
def offer (w : Walk) (first last : Nat) : Offer :=
  ⟨w.taken, w.total, first, last⟩

/-- The beginning of a search. -/
def start (p : Pool) : Walk :=
  ⟨[], 0, p.inputLimit, 0⟩

end Walk

namespace Offer

/-- All positions of an offer in ascending order. -/
def positions (o : Offer) : List Nat :=
  o.taken.reverse ++ List.range' o.first (o.last - o.first)

/-- The sum of an offer, from the totals of the tails. -/
def worth (o : Offer) (tails : Array Int) : Int :=
  Signed.add o.total (tails.getD o.first 0 - tails.getD o.last 0)

end Offer

namespace Goal

/-- One iteration.  Of the open positions only those count whose value fits
the room below the band's upper edge.  The last one that does not fit is the
smallest overshoot; the first one that fits is taken if the rest can still
reach the band, and otherwise the largest ones that fit come as near to it as
this branch can. -/
def turn (g : Goal) (tails : Array Int) (w : Walk) : Turn :=
  if w.slots = 0 ∨ g.pool.size ≤ w.next then ⟨[], g.pool.retreat w⟩
  else
    let fits := g.pool.firstFitting (g.highest - w.total) w.next
    let beyond :=
      if g.allowsOvershoot ∧ w.next < fits then [w.offer (fits - 1) fits]
      else []
    if g.pool.size ≤ fits then ⟨beyond, g.pool.retreat w⟩
    else if g.lowest ≤ Signed.add w.total (tails.getD fits 0) then
      let w' := g.pool.take w fits
      if g.isMatch w'.total then ⟨beyond, .found w'.taken⟩
      else ⟨beyond ++ [w'.offer w'.next w'.next], .onward w'⟩
    else
      ⟨beyond ++ [w.offer fits (fits + min w.slots (g.pool.size - fits))],
        g.pool.retreat w⟩

/-- Weighs an offer against the record and gives the record after it.  An offer
farther from the target than the record is dropped before its positions are
looked at. -/
def weigh (g : Goal) (tails : Array Int) (record : Option Selection)
    (o : Offer) :
    Option Selection :=
  let sum := o.worth tails
  if !g.admits sum then record
  else if record.any fun best => g.distance best.sum < g.distance sum then
    record
  else
    let s := Selection.ofPositions g.pool o.positions
    if g.improves s record then some s else record

/-- Repeats turns until one ends the search, the iterations run out or the
signal stops it. -/
def explore (g : Goal) (tails : Array Int) (stops : Nat → Bool) :
    (budget done : Nat) → Walk → Option Selection → Report
  | 0, done, _, record => ⟨.budgetSpent, none, record, done⟩
  | budget + 1, done, w, record =>
    if stops done then ⟨.cancelled, none, record, done⟩
    else
      let t := g.turn tails w
      let record := t.offers.foldl (g.weigh tails) record
      match t.move with
      | .found taken =>
        ⟨.matched, some (Selection.ofPositions g.pool taken.reverse),
          record, done + 1⟩
      | .finished => ⟨.exhausted, none, record, done + 1⟩
      | .onward w => g.explore tails stops budget (done + 1) w record

/-- Searches the pool.  The signal tells for each number of iterations done
whether the search has been cancelled by then. -/
def search (g : Goal) (limits : Limits) (signal : Nat → Bool) : Report :=
  g.explore g.pool.tails (limits.stops signal) limits.iterations 0
    (.start g.pool) none

end Goal

end ExactSpend
