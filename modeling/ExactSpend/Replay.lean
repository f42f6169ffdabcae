import ExactSpend.Payer
import ExactSpend.Statistics

/-!
# Replays

A replay applies the events of a scenario to a payer in order.  A deposit is
handed to the payer.  A withdrawal adds a payment to those that are pending
and asks the payer to pay them all; what becomes of payments that could not be
funded is a matter of policy.  The replay keeps the rows of its result tables.
The first event that cannot be carried out ends it, with everything that was
done until then; an event is counted before it is known to be one that can be
carried out.
-/

namespace ExactSpend

/-- What happens to payments that could not be funded. -/
inductive Policy
  /-- They are forgotten. -/
  | drop
  /-- They are tried again together with the next payment. -/
  | rollForward
deriving DecidableEq, Repr

/-- Some amounts under the number of a withdrawal. -/
structure AmountsRow where
  id : Nat
  amounts : List Nat
deriving DecidableEq, Repr

/-- The state of a replay with the rows written so far. -/
structure Replay (σ : Type) where
  payer : σ
  statistics : Statistics := {}
  pending : List Payment := []
  /-- The number of withdrawals tried. -/
  withdrawals : Nat := 0
  /-- The coins held before each withdrawal. -/
  coinRows : Array AmountsRow := #[]
  /-- The coins spent by each withdrawal. -/
  inputRows : Array AmountsRow := #[]
  /-- The statistics after every so many withdrawals. -/
  samples : Array Statistics := #[]
  records : Array PaymentRecord := #[]
  notices : Array Notice := #[]

namespace Replay

/-- Why a replay ended early. -/
inductive Fault
  | row (fault : Table.Fault)
  | deposit (fault : DepositFault)
  | payment (amount : Float) (cause : Amount.Fault)

/-- The report of a fault. -/
def Fault.message : Fault → String
  | row fault => fault.message
  | deposit fault => fault.message
  | payment amount cause =>
    "invalid payment amount " ++ Decimal.plainText amount ++ ": "
      ++ cause.message

/-- The number of withdrawals between two samples. -/
def sampleInterval : Nat := 500

/-- The tag of the scripts that payments go to. -/
def payeeTag : UInt8 := 0

/-- Counts a deposit and hands it to the payer. -/
def deposit (p : Payer σ) (r : Replay σ) (row : ScenarioRow) :
    Replay σ × Option Fault :=
  let r := { r with
    statistics := { r.statistics with deposits := r.statistics.deposits + 1 } }
  match p.deposit r.payer row with
  | .error fault => (r, some (.deposit fault))
  | .ok payer => ({ r with payer }, none)

/-- The payments that are pending after an attempt to pay them. -/
def remaining (policy : Policy) (payments : List Payment) (funding : Funding) :
    List Payment :=
  if policy = .rollForward ∧ funding = .failed then payments else []

/-- Pays what is pending and writes the rows of the withdrawal counted last. -/
def pay (p : Payer σ) (policy : Policy) (r : Replay σ) (payment : Payment)
    (rate : Float32) :
    Replay σ :=
  let id := r.withdrawals
  let payments := r.pending ++ [payment]
  let paid := p.withdraw r.payer payments rate
  let record := { paid.record with id }
  let statistics := r.statistics.record record
  let pending := remaining policy payments record.funding
  let isSample := id % sampleInterval = 0
  let told : List Notice :=
    (if pending.isEmpty then [] else [.rolledForward pending.length])
      ++ if isSample then [.progress id statistics.usage.text] else []
  { payer := paid.state
    statistics
    pending
    withdrawals := id
    coinRows := r.coinRows.push ⟨id, p.amounts r.payer⟩
    inputRows := r.inputRows.push ⟨id, record.inputs⟩
    samples := if isSample then r.samples.push statistics else r.samples
    records := r.records.push record
    notices := r.notices ++ paid.notices ++ told }

/-- Counts a withdrawal and pays it, unless its amount is faulty. -/
def withdraw (p : Payer σ) (policy : Policy) (r : Replay σ)
    (row : ScenarioRow) :
    Replay σ × Option Fault :=
  let r := { r with withdrawals := r.withdrawals + 1 }
  match Amount.ofBitcoin (-row.amount) with
  | .error cause => (r, some (.payment row.amount cause))
  | .ok satoshis =>
    (r.pay p policy ⟨satoshis, Script.numbered payeeTag r.withdrawals⟩ row.rate,
      none)

/-- Carries out one event.  An amount that is not positive is paid; so is one
that is no number, which is refused like any other faulty amount. -/
def step (p : Payer σ) (policy : Policy) (r : Replay σ) (row : ScenarioRow) :
    Replay σ × Option Fault :=
  if row.amount > 0 then r.deposit p row else r.withdraw p policy row

/-- Carries out events until one is faulty. -/
def run (p : Payer σ) (policy : Policy) (r : Replay σ) :
    List (Except Table.Fault ScenarioRow) → Replay σ × Option Fault
  | [] => (r, none)
  | .error fault :: _ => (r, some (.row fault))
  | .ok row :: rest =>
    match r.step p policy row with
    | (r, some fault) => (r, some fault)
    | (r, none) => run p policy r rest

/-- Ends a replay that met no fault: the final statistics are one more
sample. -/
def finish (r : Replay σ) : Replay σ :=
  { r with
    samples := r.samples.push r.statistics
    notices := r.notices.push <|
      .replayed r.statistics.deposits r.statistics.withdrawals
        r.statistics.changeless }

/-- Replays a whole scenario from its name and bytes. -/
def ofScenario (p : Payer σ) (policy : Policy) (payer : σ) (name : String)
    (bytes : List UInt8) : Replay σ × Option Fault :=
  let start : Replay σ := { payer, statistics := { scenario := name } }
  match run p policy start (scenarioRows bytes) with
  | (r, none) => (r.finish, none)
  | (r, some fault) => (r, some fault)

end Replay

end ExactSpend
