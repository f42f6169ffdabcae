import ExactSpend.Replay
import ExactSpend.Storage

/-!
# Result files

A replay leaves four tables in its output directory: the coins before each
withdrawal, the coins spent, samples of the statistics, and the payment
records.  All four files are created before the first event, and none of them
may be there already.
-/

namespace ExactSpend

/-- The tables of a replay. -/
inductive ResultFile
  | coins
  | inputs
  | samples
  | records
deriving DecidableEq, Repr

namespace ResultFile

/-- The name of the file. -/
def name : ResultFile → String
  | coins => "utxos.csv"
  | inputs => "inputs.csv"
  | samples => "results.csv"
  | records => "full_results.csv"

/-- All files in the order in which they are created. -/
def all : List ResultFile :=
  [coins, inputs, samples, records]

/-- The line of some amounts under a number. -/
def amountsLine (row : AmountsRow) : String :=
  Table.line [toString row.id, ",".intercalate (row.amounts.map toString)]

/-- The text of the file. -/
def text (r : Replay σ) : ResultFile → String
  | coins => String.join (r.coinRows.toList.map amountsLine)
  | inputs => String.join (r.inputRows.toList.map amountsLine)
  | samples => Table.withHeader Statistics.columns r.samples.toList
  | records => Table.withHeader PaymentRecord.columns r.records.toList

end ResultFile

/-- A payer with its state and a policy, ready to replay scenarios. -/
structure Simulation (σ : Type) where
  payer : Payer σ
  policy : Policy
  state : σ

namespace Simulation

/-- Why a simulation failed. -/
inductive Fault
  | scenario (path : String) (fault : StorageFault)
  | output (path : String) (fault : StorageFault)
  | file (path : String) (fault : StorageFault)
  | unreadable (fault : StorageFault)
  | replay (fault : Replay.Fault)

/-- The report of a fault. -/
def Fault.message : Fault → String
  | scenario path fault =>
    "cannot open scenario " ++ path ++ ": " ++ fault.message
  | output path fault =>
    "cannot create output directory " ++ path ++ ": " ++ fault.message
  | file path fault => "cannot create " ++ path ++ ": " ++ fault.message
  | unreadable fault => fault.message
  | replay fault => fault.message

/-- The payer's state and the notices at the end, and the fault if there was
one. -/
structure Outcome (σ : Type) where
  state : σ
  notices : List Notice
  fault : Option Fault

/-- Creates the result files; the first that is refused is the fault. -/
def createFiles [Monad m] (store : Storage m) (output : String) :
    List ResultFile → m (Option Fault)
  | [] => return none
  | file :: rest => do
    let path := Path.join output file.name
    match ← store.create path with
    | .error fault => return some (.file path fault)
    | .ok () => createFiles store output rest

/-- The replay of a scenario from its path and bytes. -/
def replay (s : Simulation σ) (scenario : String) (bytes : List UInt8) :
    Replay σ × Option Replay.Fault :=
  Replay.ofScenario s.payer s.policy s.state (Path.fileName scenario) bytes

/-- Replays the scenario at a path into an output directory.  The scenario is
opened first; what was written before a fault stays. -/
def run [Monad m] (store : Storage m) (s : Simulation σ)
    (scenario output : String) : m (Outcome σ) := do
  let failed (fault : Fault) : Outcome σ := ⟨s.state, [], some fault⟩
  match ← store.read scenario with
  | .error fault => return failed (.scenario scenario fault)
  | .ok contents =>
    match ← store.ensureDirectories output with
    | .error fault => return failed (.output output fault)
    | .ok () =>
      if let some fault ← createFiles store output ResultFile.all then
        return failed fault
      match contents with
      | .unreadable fault => return failed (.unreadable fault)
      | .bytes bytes =>
        let (r, fault) := s.replay scenario bytes
        for file in ResultFile.all do
          store.append (Path.join output file.name) (file.text r)
        return ⟨r.payer, r.notices.toList, fault.map .replay⟩

end Simulation

end ExactSpend
