/-!
# Cancellation signals

A signal is a flag that can be raised once and for all.  A child signal has a
flag of its own and also observes the flags of its ancestors; a copy shares
the flag of the signal it was made from.  A guard raises the flag of the
signal it holds when it is dropped.
-/

namespace ExactSpend

/-- A signal by the flags it observes: its own first, then its parent's, and
so on up to the oldest ancestor. -/
structure Signal where
  own : Nat
  ancestors : List Nat
deriving DecidableEq, Repr

/-- The flags that a signal observes. -/
def Signal.observed (s : Signal) : List Nat :=
  s.own :: s.ancestors

/-- All signals and guards in use, by name, and the flags raised so far. -/
structure Switchboard where
  /-- The number of flags made so far. -/
  flags : Nat := 0
  raised : List Nat := []
  signals : List (String × Signal) := []
  guards : List (String × Signal) := []
deriving DecidableEq, Repr

namespace Switchboard

/-- What can be done with signals and guards. -/
inductive Step
  | create (name : String)
  | child (parent name : String)
  | copy (source name : String)
  | cancel (name : String)
  | guard (name guard : String)
  | dropGuard (guard : String)
  | drop (name : String)
deriving DecidableEq, Repr

/-- The bindings without those of a name. -/
def without (bindings : List (String × Signal)) (name : String) :
    List (String × Signal) :=
  bindings.filter (·.1 ≠ name)

/-- A signal is cancelled if one of the flags it observes is raised. -/
def isCancelled (b : Switchboard) (s : Signal) : Bool :=
  s.observed.any (b.raised.contains ·)

/-- Raises the flag of a signal. -/
def raise (b : Switchboard) (s : Signal) : Switchboard :=
  { b with raised := s.own :: b.raised }

/-- Binds a name to a signal; an earlier binding of the name is dropped. -/
def bind (b : Switchboard) (name : String) (s : Signal) : Switchboard :=
  { b with signals := (name, s) :: without b.signals name }

/-- Drops a guard, which raises the flag of the signal it holds. -/
def releaseGuard (b : Switchboard) (guard : String) : Switchboard :=
  match b.guards.lookup guard with
  | some s => { b.raise s with guards := without b.guards guard }
  | none => b

/-- Carries out one step; a step that names an unknown signal does nothing. -/
def step (b : Switchboard) : Step → Switchboard
  | .create name => { b.bind name ⟨b.flags, []⟩ with flags := b.flags + 1 }
  | .child parent name =>
    match b.signals.lookup parent with
    | some s => { b.bind name ⟨b.flags, s.observed⟩ with flags := b.flags + 1 }
    | none => b
  | .copy source name =>
    match b.signals.lookup source with
    | some s => b.bind name s
    | none => b
  | .cancel name =>
    match b.signals.lookup name with
    | some s => b.raise s
    | none => b
  | .guard name guard =>
    match b.signals.lookup name with
    | some s =>
      let freed := b.releaseGuard guard
      { freed with
        signals := without freed.signals name
        guards := (guard, s) :: freed.guards }
    | none => b
  | .dropGuard guard => b.releaseGuard guard
  | .drop name => { b with signals := without b.signals name }

/-- Carries out steps one after the other. -/
def run (b : Switchboard) (steps : List Step) : Switchboard :=
  steps.foldl step b

/-- For every live signal its name and whether it is cancelled. -/
def states (b : Switchboard) : List (String × Bool) :=
  b.signals.map fun (name, s) => (name, b.isCancelled s)

/-- The states after each of some steps. -/
def trace (b : Switchboard) : List Step → List (List (String × Bool))
  | [] => []
  | s :: rest => (b.step s).states :: (b.step s).trace rest

end Switchboard

end ExactSpend
