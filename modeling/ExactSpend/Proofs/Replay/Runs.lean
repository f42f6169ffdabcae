import Mathlib.Data.List.Infix
import ExactSpend.Replay

/-!
# Runs of a replay

An event of a replay either is carried out, as a deposit or as a payment, or it
is refused, and then nothing but the counters has changed.  So every replay
carries out the events before the first one that is refused, and all of them if
none is.  What holds of the events carried out is proved by going through them
one after the other.
-/

namespace ExactSpend

variable {σ : Type} {p : Payer σ} {policy : Policy}

/-- An event with a positive amount is a deposit. -/
def ScenarioRow.isDeposit (row : ScenarioRow) : Bool :=
  row.amount > 0

/-- The number of deposits among some events. -/
def depositCount (rows : List ScenarioRow) : ℕ :=
  rows.countP (·.isDeposit)

/-- The number of withdrawals among some events. -/
def withdrawalCount (rows : List ScenarioRow) : ℕ :=
  rows.countP (!·.isDeposit)

namespace Replay

variable {r r' : Replay σ} {rows : List ScenarioRow} {row : ScenarioRow}

/-- A replay that has counted one more deposit. -/
def countDeposit (r : Replay σ) : Replay σ :=
  { r with statistics := { r.statistics with
    deposits := r.statistics.deposits + 1 } }

/-- A replay that has counted one more withdrawal. -/
def countWithdrawal (r : Replay σ) : Replay σ :=
  { r with withdrawals := r.withdrawals + 1 }

/-! ## One event -/

/-- What a replay becomes when it carries out an event. -/
inductive Does (p : Payer σ) (policy : Policy) (r : Replay σ)
    (row : ScenarioRow) :
    Replay σ → Prop
  | deposit {payer : σ} (hrow : row.isDeposit = true)
      (hpayer : p.deposit r.payer row = .ok payer) :
      Does p policy r row { r.countDeposit with payer }
  | payment {satoshis : ℕ} (hrow : row.isDeposit = false)
      (hamount : Amount.ofBitcoin (-row.amount) = .ok satoshis) :
      Does p policy r row <|
        r.countWithdrawal.pay p policy
          ⟨satoshis, Script.numbered payeeTag (r.withdrawals + 1)⟩ row.rate

/-- A row that cannot be carried out, and why: it is malformed, the payer
refuses the deposit, or the amount to be paid is faulty. -/
inductive Refuses (p : Payer σ) (payer : σ) :
    Except Table.Fault ScenarioRow → Fault → Prop
  | malformed (fault : Table.Fault) :
      Refuses p payer (.error fault) (.row fault)
  | deposit {row : ScenarioRow} {fault : DepositFault}
      (hrow : row.isDeposit = true)
      (hpayer : p.deposit payer row = .error fault) :
      Refuses p payer (.ok row) (.deposit fault)
  | payment {row : ScenarioRow} {cause : Amount.Fault}
      (hrow : row.isDeposit = false)
      (hamount : Amount.ofBitcoin (-row.amount) = .error cause) :
      Refuses p payer (.ok row) (.payment row.amount cause)

/-- An event is carried out, or it is refused and nothing but a counter
changes. -/
theorem step_cases (p : Payer σ) (policy : Policy) (r : Replay σ)
    (row : ScenarioRow) :
    (∃ r', r.Does p policy row r' ∧ r.step p policy row = (r', none)) ∨
      ∃ fault statistics withdrawals, Refuses p r.payer (.ok row) fault ∧
        r.step p policy row =
          ({ r with statistics, withdrawals }, some fault) := by
  by_cases hrow : row.amount > 0
  · have hdeposit : row.isDeposit = true := decide_eq_true hrow
    cases hpayer : p.deposit r.payer row with
    | ok payer =>
        refine Or.inl ⟨_, .deposit hdeposit hpayer, ?_⟩
        rw [step, if_pos hrow, deposit]
        dsimp only
        rw [hpayer]
        rfl
    | error fault =>
        refine Or.inr ⟨_, r.countDeposit.statistics, r.withdrawals,
          .deposit hdeposit hpayer, ?_⟩
        rw [step, if_pos hrow, deposit]
        dsimp only
        rw [hpayer]
        rfl
  · have hwithdrawal : row.isDeposit = false := decide_eq_false hrow
    cases hamount : Amount.ofBitcoin (-row.amount) with
    | ok satoshis =>
        refine Or.inl ⟨_, .payment hwithdrawal hamount, ?_⟩
        rw [step, if_neg hrow, withdraw]
        dsimp only
        rw [hamount]
        rfl
    | error cause =>
        refine Or.inr ⟨_, r.statistics, r.withdrawals + 1,
          .payment hwithdrawal hamount, ?_⟩
        rw [step, if_neg hrow, withdraw]
        dsimp only
        rw [hamount]

/-! ## Many events -/

/-- A replay carries out some events without a fault. -/
def Carries (p : Payer σ) (policy : Policy) (r : Replay σ)
    (rows : List ScenarioRow) (r' : Replay σ) : Prop :=
  run p policy r (rows.map .ok) = (r', none)

theorem carries_cons {r₁ : Replay σ} (h : r.step p policy row = (r₁, none)) :
    r.Carries p policy (row :: rows) r' ↔ r₁.Carries p policy rows r' := by
  rw [Carries, List.map_cons, run, h]
  rfl

/-- What holds at the beginning and is kept by each event carried out holds at
the end. -/
theorem Carries.induction {motive : List ScenarioRow → Replay σ → Prop}
    (h : r.Carries p policy rows r') (start : motive [] r)
    (next : ∀ {before row r₁ r₂}, motive before r₁ → Does p policy r₁ row r₂ →
      motive (before ++ [row]) r₂) : motive rows r' := by
  suffices hall : ∀ rows {before r₁}, motive before r₁ →
      r₁.Carries p policy rows r' →
      motive (before ++ rows) r' from hall rows start h
  intro rows
  induction rows with
  | nil =>
      intro before r₁ hbefore hcarries
      obtain rfl : r₁ = r' := (Prod.mk.inj hcarries).1
      rwa [List.append_nil]
  | cons row rest ih =>
      intro before r₁ hbefore hcarries
      rcases step_cases p policy r₁ row with
          ⟨r₂, hdoes, hstep⟩ | ⟨_, _, _, _, hstep⟩
      · have hrest := ih (next hbefore hdoes) ((carries_cons hstep).mp hcarries)
        rwa [List.append_assoc] at hrest
      · rw [Carries, List.map_cons, run, hstep] at hcarries
        simp at hcarries

/-- A run carries out all rows, or those before a row that is refused; then only
counters have changed since. -/
theorem run_cases (p : Payer σ) (policy : Policy)
    (all : List (Except Table.Fault ScenarioRow)) :
    ∀ r : Replay σ, ∃ rows r', r.Carries p policy rows r' ∧
      (all = rows.map .ok ∧ run p policy r all = (r', none) ∨
        ∃ bad rest fault statistics withdrawals,
          all = rows.map .ok ++ bad :: rest ∧
          Refuses p r'.payer bad fault ∧
          run p policy r all =
            ({ r' with statistics, withdrawals }, some fault)) := by
  induction all with
  | nil => exact fun r => ⟨[], r, rfl, Or.inl ⟨rfl, rfl⟩⟩
  | cons first all ih =>
      intro r
      cases first with
      | error fault =>
          exact ⟨[], r, rfl,
            Or.inr ⟨_, all, _, r.statistics, r.withdrawals, rfl,
            .malformed fault, rfl⟩⟩
      | ok row =>
          rcases step_cases p policy r row with
            ⟨r₁, -, hstep⟩ | ⟨fault, statistics, withdrawals, hrefuses, hstep⟩
          · obtain ⟨rows, r', hcarries, h⟩ := ih r₁
            refine ⟨row :: rows, r', (carries_cons hstep).mpr hcarries, ?_⟩
            rw [run, hstep]
            rcases h with ⟨rfl, hrun⟩ | ⟨bad, rest, fault, statistics,
                withdrawals, rfl, h, hrun⟩
            · exact Or.inl ⟨rfl, hrun⟩
            · exact Or.inr ⟨bad, rest, fault, statistics,
                withdrawals, rfl, h, hrun⟩
          · refine ⟨[], r, rfl, Or.inr ⟨_, all, fault, statistics, withdrawals,
              rfl, hrefuses, ?_⟩⟩
            rw [run, hstep]

/-- A replay before its first event. -/
def start (payer : σ) (name : String) : Replay σ :=
  { payer, statistics := { scenario := name } }

/-- A replay ends when all events of a scenario are carried out. -/
theorem Carries.ofScenario_eq {payer : σ} {name : String} {bytes : List UInt8}
    (h : (start payer name).Carries p policy rows r)
    (hrows : scenarioRows bytes = rows.map .ok) :
    ofScenario p policy payer name bytes = (r.finish, none) := by
  rw [Carries] at h
  rw [ofScenario, ← start, hrows, h]

/-- A replay of a whole scenario ends when all its events are carried out, or at
the first that is refused. -/
theorem ofScenario_cases (p : Payer σ) (policy : Policy) (payer : σ)
    (name : String) (bytes : List UInt8) :
    ∃ rows r, (start payer name).Carries p policy rows r ∧
      (scenarioRows bytes = rows.map .ok ∧
          ofScenario p policy payer name bytes = (r.finish, none) ∨
        ∃ bad rest fault statistics withdrawals,
          scenarioRows bytes = rows.map .ok ++ bad :: rest ∧
          Refuses p r.payer bad fault ∧
          ofScenario p policy payer name bytes =
            ({ r with statistics, withdrawals }, some fault)) := by
  obtain ⟨rows, r, hcarries, h⟩ :=
    run_cases p policy (scenarioRows bytes) (start payer name)
  refine ⟨rows, r, hcarries, ?_⟩
  rcases h with ⟨hall, -⟩ |
    ⟨bad, rest, fault, statistics, withdrawals, hall, hrefuses, hrun⟩
  · exact Or.inl ⟨hall, hcarries.ofScenario_eq hall⟩
  · refine Or.inr
      ⟨bad, rest, fault, statistics, withdrawals, hall, hrefuses, ?_⟩
    rw [ofScenario, ← start, hrun]

end Replay
end ExactSpend
