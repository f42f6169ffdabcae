import ExactSpend.Event
import ExactSpend.Funding

/-!
# Notices

The library does not write a log; it returns what there is to tell as values.
A notice is one such value, and `Notice.entry` is the line a log shows for it:
a level, a message and named fields.
-/

namespace ExactSpend

/-- The importance of a log entry. -/
inductive Level
  | trace
  | debug
  | info
deriving DecidableEq, Repr

/-- The word for the level. -/
def Level.name : Level → String
  | trace => "TRACE"
  | debug => "DEBUG"
  | info => "INFO"

/-- One entry of a log. -/
structure Entry where
  level : Level
  message : String
  fields : List (String × String)
deriving DecidableEq, Repr

/-- What there is to tell about a plan, its searches, a payment or a replay. -/
inductive Notice
  | nothingToSearch (coins : Nat) (target : Int) (inputLimit : Nat)
  | groupSkipped (script : Script) (total : Nat) (target : Int)
  | groupRefused (group : Group) (fault : Pool.Fault)
  | searchEvent (event : Event)
  | timedOut (found : Nat)
  | paymentBuilt (funding : Funding) (inputs : Nat) (fee : Int) (change : Nat)
  | rolledForward (pending : Nat)
  | progress (withdrawals : Nat) (usage : String)
  | replayed (deposits withdrawals changeless : Nat)
deriving DecidableEq, Repr

/-- The log entry of a search event. -/
def Event.entry : Event → Entry
  | dispatched label =>
    ⟨.debug, "dispatching changeless search",
      [("group", label.group.text), ("strategy", label.side.name),
        ("candidates", toString label.candidates)]⟩
  | cancelled label iterations =>
    ⟨.info, "changeless search was cancelled or timed out",
      [("group", label.group.text), ("strategy", label.side.name),
        ("iterations", toString iterations)]⟩
  | budgetSpent label iterations =>
    ⟨.debug, "changeless search ran out of iterations",
      [("group", label.group.text), ("strategy", label.side.name),
        ("iterations", toString iterations)]⟩
  | finished label outcome =>
    let ends := [("group", label.group.text), ("strategy", label.side.name)]
    let shape (s : Selection) :=
      [("inputs", toString s.size), ("sum", toString s.sum)]
    match outcome with
    | .found s => ⟨.debug, "found changeless match", ends ++ shape s⟩
    | .bestEffort s => ⟨.debug, "using best-effort selection", ends ++ shape s⟩
    | .noMatch => ⟨.trace, "no changeless selection", ends⟩

namespace Notice

/-- The log entry of a notice. -/
def entry : Notice → Entry
  | nothingToSearch coins target inputLimit =>
    ⟨.debug, "nothing to search",
      [("coins", toString coins), ("target", toString target),
        ("max_input_count", toString inputLimit)]⟩
  | groupSkipped script total target =>
    ⟨.trace, "skipping script group",
      [("script", script.hex), ("total", toString total),
        ("target", toString target)]⟩
  | groupRefused group fault =>
    ⟨.debug, "cannot build selection strategies",
      [("group", group.text), ("error", fault.message)]⟩
  | searchEvent event => event.entry
  | timedOut found =>
      ⟨.info, "changeless search timed out", [("found", toString found)]⟩
  | paymentBuilt funding inputs fee change =>
    ⟨.debug, "payment built",
      [("algorithm", funding.name), ("inputs", toString inputs),
        ("fee", toString fee), ("change", toString change)]⟩
  | rolledForward pending =>
    ⟨.debug, "rolling failed payments forward", [("pending", toString pending)]⟩
  | progress withdrawals usage =>
    ⟨.info, "simulation progress",
      [("withdraw_attempt", toString withdrawals), ("usage", usage)]⟩
  | replayed deposits withdrawals changeless =>
    ⟨.info, "simulation finished",
      [("deposits", toString deposits), ("withdrawals", toString withdrawals),
        ("changeless", toString changeless)]⟩

/-- Skipped groups have no order among themselves; the texts of their script,
target and total give them one. -/
def skipKey? : Notice → Option (List String)
  | groupSkipped script total target =>
      some [script.hex, toString target, toString total]
  | _ => none

/-- Puts every run of skipped groups into the order of their keys and keeps
all else in place. -/
def settled (notices : List Notice) : List Notice :=
  (notices.splitBy fun a b =>
      a.skipKey?.isSome && b.skipKey?.isSome).flatMap fun run =>
    run.mergeSort fun a b =>
      (compare (a.skipKey?.getD []) (b.skipKey?.getD [])).isLE

end Notice

end ExactSpend
