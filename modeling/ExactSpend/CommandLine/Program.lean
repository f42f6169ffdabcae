import ExactSpend.CommandLine.Options
import ExactSpend.Replay.Results
import ExactSpend.SettingsTable
import ExactSpend.Wallet.Withdrawal

/-!
# The program

The program reads its command line and its settings and runs one simulation.
It does all its reading and writing through a storage.
-/

namespace ExactSpend.CommandLine

/-- Why a run of the program failed. -/
inductive Fault
  | settingsMissing (path : String) (fault : StorageFault)
  | settingsInvalid (path : String) (fault : Table.Fault)
  | rateTooLarge
  | simulation (fault : Simulation.Fault)

/-- The report of a fault. -/
def Fault.message : Fault → String
  | settingsMissing path fault =>
    "cannot open selector config " ++ path ++ ": " ++ fault.message
  | settingsInvalid path fault =>
    "invalid selector config " ++ path ++ ": " ++ fault.message
  | rateTooLarge => "long-term fee rate is too large"
  | simulation fault => fault.message

/-- The settings at a path; the defaults without a path.  What cannot be read
counts as a table without rows. -/
def loadSettings [Monad m] (store : Storage m) :
    Option String → m (Except Fault Settings)
  | none => return .ok {}
  | some path => do
    match ← store.read path with
    | .error fault => return .error (.settingsMissing path fault)
    | .ok (.unreadable _) => return .ok {}
    | .ok (.bytes bytes) =>
      return (Settings.ofBytes bytes).mapError (.settingsInvalid path)

/-- The simulation that options ask for. -/
def Options.simulation (o : Options) (settings : Settings) :
    Except Fault (Simulation Wallet) :=
  match FeeRate.perVirtualByte? o.longTermRate with
  | none => .error .rateTooLarge
  | some longTermRate => .ok {
    payer := Wallet.payer
    policy := o.policy
    state := { rules := {
      settings := o.override settings
      longTermRate
      dustLimit := o.dustLimit
      inputLimit := o.maxInputs
      timeout := o.timeout
      addressReuse := o.addressReuse } } }

/-- Carries out a command line: the notices of the simulation, and the fault
if there was one. -/
def Invocation.run [Monad m] (store : Storage m) (i : Invocation) :
    m (List Notice × Option Fault) := do
  match ← loadSettings store i.options.selectorConfig with
  | .error fault => return ([], some fault)
  | .ok settings =>
    match i.options.simulation settings with
    | .error fault => return ([], some fault)
    | .ok simulation =>
      let outcome ← simulation.run store i.scenario i.output
      return (outcome.notices, outcome.fault.map .simulation)

/-- What a run of the program leaves: its exit code and its error output. -/
structure Exit where
  code : UInt8
  stderr : String
deriving DecidableEq, Repr

/-- Runs the program. -/
def run [Monad m] (store : Storage m) (arguments : List String)
    (environment : List (String × String)) : m (List Notice × Exit) := do
  match Invocation.read arguments environment with
  | .error fault => return ([], ⟨fault.exitCode, ""⟩)
  | .ok invocation =>
    match ← invocation.run store with
    | (notices, none) => return (notices, ⟨0, ""⟩)
    | (notices, some fault) => return (notices, ⟨1, fault.message ++ "\n"⟩)

end ExactSpend.CommandLine
