import Mathlib.Data.List.Forall2
import ExactSpend.Proofs.Replay.Files
import ExactSpend.Proofs.Replay.Runs
import ExactSpend.Wallet.Withdrawal

/-!
# Which call is for which payment

A payer that is watched keeps the calls made of it beside its state, and a
replay with it goes as it goes without.  So the calls of a replay can be told
whatever the payer is: which payments each of them is for, and that the calls
which did not fail pay every payment once, but for those that are pending at the
end.
-/

namespace ExactSpend

variable {σ : Type}

/-! ## Watched payers -/

/-- A call of a payer: the payments it was for and how they were funded. -/
structure Attempt where
  payments : List Payment
  funding : Funding
deriving DecidableEq, Repr

/-- The call has paid nothing. -/
def Attempt.failed (attempt : Attempt) : Bool :=
  attempt.funding = .failed

/-- A payer that keeps the calls made of it beside its state. -/
def Payer.watched (p : Payer σ) : Payer (σ × List Attempt) where
  amounts state := p.amounts state.1
  deposit state row := (p.deposit state.1 row).map (·, state.2)
  withdraw state payments rate :=
    let paid := p.withdraw state.1 payments rate
    ⟨(paid.state, state.2 ++ [⟨payments, paid.record.funding⟩]),
      paid.record, paid.notices⟩

namespace Replay

variable (p : Payer σ) (policy : Policy)

/-- A replay without the calls that its payer has kept. -/
def unwatched (r : Replay (σ × List Attempt)) : Replay σ :=
  { r with payer := r.payer.1 }

theorem step_watched (r : Replay (σ × List Attempt)) (row : ScenarioRow) :
    r.unwatched.step p policy row =
      (r.step p.watched policy row).map unwatched id := by
  by_cases hrow : row.amount > 0
  · rw [step, step, if_pos hrow, if_pos hrow, deposit, deposit]
    dsimp only [unwatched, Payer.watched]
    cases p.deposit r.payer.1 row <;> rfl
  · rw [step, step, if_neg hrow, if_neg hrow, withdraw, withdraw]
    dsimp only
    cases Amount.ofBitcoin (-row.amount) <;> rfl

theorem run_watched (events : List (Except Table.Fault ScenarioRow)) :
    ∀ r : Replay (σ × List Attempt),
      run p policy r.unwatched events =
        (run p.watched policy r events).map unwatched id := by
  induction events with
  | nil => exact fun r => rfl
  | cons event events ih =>
      intro r
      cases event with
      | error fault => rfl
      | ok row =>
          rw [run, run, step_watched p policy r row]
          obtain ⟨r', - | fault⟩ := r.step p.watched policy row
          · exact ih r'
          · rfl

/-- Watching a payer changes nothing that a replay does. -/
theorem ofScenario_watched (payer : σ) (name : String) (bytes : List UInt8) :
    ofScenario p policy payer name bytes =
      (ofScenario p.watched policy (payer, []) name bytes).map
        unwatched id := by
  have hrun :=
    run_watched p policy (scenarioRows bytes) (start (payer, []) name)
  have hstart :
      (start (payer, ([] : List Attempt)) name).unwatched =
        start payer name := rfl
  rw [ofScenario, ofScenario, ← start, ← start, ← hstart, hrun]
  obtain ⟨r, - | fault⟩ :=
    run p.watched policy (start (payer, []) name) (scenarioRows bytes) <;> rfl

variable {p}

/-- A row is refused by a payer if it is refused by the payer watched. -/
theorem Refuses.of_watched {payer : σ × List Attempt}
    {row : Except Table.Fault ScenarioRow} {fault : Fault}
    (h : Refuses p.watched payer row fault) : Refuses p payer.1 row fault := by
  cases h with
  | malformed fault => exact .malformed fault
  | payment hrow hamount => exact .payment hrow hamount
  | @deposit row fault hrow hpayer =>
      refine .deposit hrow ?_
      dsimp only [Payer.watched] at hpayer
      cases hdeposit : p.deposit payer.1 row with
      | error cause =>
          rw [hdeposit] at hpayer
          exact congrArg Except.error (Except.error.inj hpayer)
      | ok state => simp [hdeposit, Except.map] at hpayer

end Replay

/-! ## Payments and calls -/

/-- The payments that the withdrawals among some events ask for, in order: each
has the amount of its withdrawal and goes to a script of its own. -/
structure AreAsked (rows : List ScenarioRow)
    (payments : List Payment) : Prop where
  amounts : List.Forall₂ (fun row payment => Amount.ofBitcoin (-row.amount) =
    .ok payment.amount) (rows.filter fun row => !row.isDeposit) payments
  scripts : payments.map (·.script) =
    (List.range' 1 payments.length).map (Script.numbered Replay.payeeTag)

/-- A payment is part of the calls from its own one up to the first that does
not fail. -/
def isOpen (attempts : List Attempt) (i j : ℕ) : Bool :=
  i ≤ j && ((attempts.take j).drop i).all (·.failed)

/-- The payments that are part of a call, each once and in the order in which
they were asked for. -/
def openTo (attempts : List Attempt) (payments : List Payment)
    (j : ℕ) : List Payment :=
  (payments.zipIdx.filter fun entry => isOpen attempts entry.2 j).map (·.1)

/-- The total of the amounts of some payments. -/
def askedTotal (payments : List Payment) : ℕ :=
  Unsigned.total (payments.map (·.amount))

/-- How the calls have dealt with the payments when those that were not funded
are tried again. -/
structure RollsForward (attempts : List Attempt)
    (payments pending : List Payment) : Prop where
  /-- Every call is for the payments that are open to it. -/
  called : attempts.map (·.payments) =
    (List.range attempts.length).map (openTo attempts payments)
  /-- The pending payments are those that a next call would be for. -/
  pending_eq : pending = openTo attempts payments attempts.length
  /-- The calls that paid and the pending payments are the payments in
  consecutive blocks. -/
  blocks : (attempts.filter fun attempt => !attempt.failed).flatMap
    (·.payments) ++ pending = payments
  /-- No amount is lost and none is paid twice. -/
  totals : Unsigned.total
    ((attempts.filter fun attempt => !attempt.failed).map fun attempt =>
    askedTotal attempt.payments) + askedTotal pending = askedTotal payments

/-- How the calls have dealt with the payments when those that were not funded
are forgotten. -/
structure Drops (attempts : List Attempt)
    (payments pending : List Payment) : Prop where
  /-- Every call is for one payment, the first call for the first one. -/
  called : attempts.map (·.payments) = payments.map fun payment => [payment]
  pending_eq : pending = []

/-- How the calls have dealt with the payments under a policy. -/
def Accounts (attempts : List Attempt)
    (payments pending : List Payment) : Policy → Prop
  | .rollForward => RollsForward attempts payments pending
  | .drop => Drops attempts payments pending

variable {attempts : List Attempt} {payments pending : List Payment}
  {rows : List ScenarioRow}

theorem areAsked_nil : AreAsked [] [] :=
  ⟨.nil, rfl⟩

theorem AreAsked.deposit (h : AreAsked rows payments) {row : ScenarioRow}
    (hrow : row.isDeposit = true) : AreAsked (rows ++ [row]) payments := by
  refine ⟨?_, h.scripts⟩
  rw [List.filter_append, List.filter_singleton, hrow]
  simpa using h.amounts

theorem AreAsked.payment (h : AreAsked rows payments) {row : ScenarioRow}
    {satoshis : ℕ} (hrow : row.isDeposit = false)
    (hamount : Amount.ofBitcoin (-row.amount) = .ok satoshis) :
    AreAsked (rows ++ [row])
      (payments ++ [⟨satoshis,
        Script.numbered Replay.payeeTag (payments.length + 1)⟩]) := by
  refine ⟨?_, ?_⟩
  · rw [List.filter_append, List.filter_singleton, hrow]
    exact List.rel_append h.amounts (.cons hamount .nil)
  · rw [List.map_append, h.scripts, List.length_append, List.length_singleton,
      List.range'_concat, List.map_append, Nat.one_mul, Nat.add_comm 1]
    rfl

theorem askedTotal_append (some others : List Payment) :
    askedTotal (some ++ others) = askedTotal some + askedTotal others := by
  rw [askedTotal, List.map_append, Unsigned.total_append]
  rfl

theorem total_askedTotal (attempts : List Attempt) :
    Unsigned.total (attempts.map fun attempt => askedTotal attempt.payments) =
      askedTotal (attempts.flatMap (·.payments)) := by
  induction attempts with
  | nil => rfl
  | cons attempt attempts ih =>
      rw [List.flatMap_cons, askedTotal_append, ← ih, List.map_cons,
        Unsigned.total_cons]

/-! ## One call more -/

theorem isOpen_concat {attempt : Attempt} {i j : ℕ} (h : j ≤ attempts.length) :
    isOpen (attempts ++ [attempt]) i j = isOpen attempts i j := by
  rw [isOpen, isOpen, List.take_append_of_le_length h]

theorem isOpen_concat_length {attempt : Attempt} {i : ℕ}
    (h : i ≤ attempts.length) :
    isOpen (attempts ++ [attempt]) i (attempts.length + 1) =
      (isOpen attempts i attempts.length && attempt.failed) := by
  have hall : (attempts ++ [attempt]).take (attempts.length + 1) =
      attempts ++ [attempt] :=
    List.take_of_length_le (by simp)
  rw [isOpen, isOpen, hall, List.take_length, List.drop_append_of_le_length h,
    List.all_append, decide_eq_true h, decide_eq_true (Nat.le_succ_of_le h)]
  simp

theorem isOpen_self (attempts : List Attempt) (j : ℕ) :
    isOpen attempts j j = true := by
  rw [isOpen, List.drop_eq_nil_of_le (List.length_take_le j attempts)]
  simp

theorem openTo_concat (attempts : List Attempt) (payments : List Payment)
    (payment : Payment) (j : ℕ) :
    openTo attempts (payments ++ [payment]) j =
      openTo attempts payments j ++ if isOpen attempts payments.length j then
        [payment] else [] := by
  rw [openTo, openTo, List.zipIdx_append, List.filter_append, List.map_append]
  congr 1
  cases h : isOpen attempts payments.length j <;> simp [h]

theorem lt_of_mem_zipIdx {entry : Payment × ℕ} (h : entry ∈ payments.zipIdx) :
    entry.2 < payments.length := by
  simpa using (List.mem_zipIdx h).2.1

theorem openTo_congr {attempts' : List Attempt} {j j' : ℕ}
    (h : ∀ i < payments.length, isOpen attempts' i j' = isOpen attempts i j) :
    openTo attempts' payments j' = openTo attempts payments j := by
  rw [openTo, openTo]
  congr 1
  exact List.filter_congr fun entry hentry =>
    h entry.2 (lt_of_mem_zipIdx hentry)

section Next

variable {attempt : Attempt} {payment : Payment}
  (hlength : attempts.length = payments.length)
include hlength

/-- A new payment is not part of the calls before its own. -/
theorem openTo_earlier {j : ℕ} (hj : j < attempts.length) :
    openTo (attempts ++ [attempt]) (payments ++ [payment]) j =
      openTo attempts payments j := by
  have hnot : isOpen (attempts ++ [attempt]) payments.length j = false := by
    rw [isOpen, decide_eq_false (by omega), Bool.false_and]
  rw [openTo_concat, hnot, if_neg Bool.false_ne_true, List.append_nil]
  exact openTo_congr fun i _ => isOpen_concat hj.le

/-- The call of a new payment is also for those left open by the calls
before. -/
theorem openTo_own :
    openTo (attempts ++ [attempt]) (payments ++ [payment]) attempts.length =
      openTo attempts payments attempts.length ++ [payment] := by
  have hself :
      isOpen (attempts ++ [attempt]) payments.length attempts.length = true :=
    hlength ▸ isOpen_self _ _
  rw [openTo_concat, hself, if_pos rfl]
  congr 1
  exact openTo_congr fun i _ => isOpen_concat le_rfl

/-- The call of a new payment leaves all of its payments open, or none of
them. -/
theorem openTo_later :
    openTo (attempts ++ [attempt]) (payments ++ [payment])
      (attempts.length + 1) =
      if attempt.failed then openTo attempts payments attempts.length ++
        [payment] else [] := by
  have hold : ∀ i < payments.length,
      isOpen (attempts ++ [attempt]) i (attempts.length + 1) =
      (isOpen attempts i attempts.length && attempt.failed) :=
    fun i hi => isOpen_concat_length (by omega)
  have hnew :
      isOpen (attempts ++ [attempt]) payments.length (attempts.length + 1) =
      attempt.failed := by
    rw [isOpen_concat_length hlength.ge, ← hlength, isOpen_self, Bool.true_and]
  rw [openTo_concat, hnew]
  cases hfailed : attempt.failed with
  | true =>
      rw [if_pos rfl, if_pos rfl]
      congr 1
      exact openTo_congr fun i hi => by rw [hold i hi, hfailed, Bool.and_true]
  | false =>
      rw [if_neg Bool.false_ne_true, if_neg Bool.false_ne_true, List.append_nil,
        openTo, List.map_eq_nil_iff, List.filter_eq_nil_iff]
      intro entry hentry
      rw [hold entry.2 (lt_of_mem_zipIdx hentry), hfailed, Bool.and_false]
      exact Bool.false_ne_true

end Next

theorem Replay.remaining_rollForward (attempt : Attempt) :
    remaining .rollForward attempt.payments attempt.funding =
      if attempt.failed then attempt.payments else [] := by
  by_cases hfailed : attempt.funding = .failed <;>
    simp [remaining, Attempt.failed, hfailed]

/-- A call for all payments that are pending and one more. -/
theorem RollsForward.next (h : RollsForward attempts payments pending)
    (hlength : attempts.length = payments.length) {payment : Payment}
    {attempt : Attempt} (hasked : attempt.payments = pending ++ [payment]) :
    RollsForward (attempts ++ [attempt]) (payments ++ [payment])
      (Replay.remaining .rollForward attempt.payments attempt.funding) := by
  rw [Replay.remaining_rollForward]
  have hblocks :
      ((attempts ++ [attempt]).filter fun attempt => !attempt.failed).flatMap
      (·.payments) ++ (if attempt.failed then attempt.payments else []) =
        payments ++ [payment] := by
    rw [List.filter_append, List.flatMap_append, List.append_assoc]
    cases hfailed : attempt.failed with
    | true =>
        rw [List.filter_cons_of_neg (by simp [hfailed]), List.filter_nil,
          List.flatMap_nil, List.nil_append, if_pos rfl, hasked,
          ← List.append_assoc, h.blocks]
    | false =>
        rw [List.filter_cons_of_pos (by simp [hfailed]), List.filter_nil,
          List.flatMap_singleton, if_neg Bool.false_ne_true, List.append_nil,
          hasked, ← List.append_assoc, h.blocks]
  refine ⟨?_, ?_, hblocks, ?_⟩
  · rw [List.length_append, List.length_singleton, List.range_succ,
      List.map_append, List.map_append, h.called, List.map_singleton,
      List.map_singleton, openTo_own hlength, ← h.pending_eq, hasked]
    congr 1
    exact List.map_congr_left fun j hj =>
      (openTo_earlier hlength (List.mem_range.mp hj)).symm
  · rw [List.length_append, List.length_singleton, openTo_later hlength,
      ← h.pending_eq, hasked]
  · rw [total_askedTotal, ← askedTotal_append, hblocks]

/-- A call for a payment alone. -/
theorem Drops.next (h : Drops attempts payments pending) {payment : Payment}
    {attempt : Attempt} (hasked : attempt.payments = pending ++ [payment]) :
    Drops (attempts ++ [attempt]) (payments ++ [payment])
      (Replay.remaining .drop attempt.payments attempt.funding) := by
  refine ⟨?_, ?_⟩
  · rw [List.map_append, List.map_append, h.called, List.map_singleton,
      List.map_singleton, hasked, h.pending_eq, List.nil_append]
  · rw [Replay.remaining, if_neg fun hboth => absurd hboth.1 (by decide)]

/-! ## Replays -/

theorem accounts_nil (policy : Policy) : Accounts [] [] [] policy := by
  cases policy with
  | rollForward => exact ⟨rfl, rfl, rfl, rfl⟩
  | drop => exact ⟨rfl, rfl⟩

theorem Accounts.next {policy : Policy}
    (h : Accounts attempts payments pending policy)
    (hlength : attempts.length = payments.length) {payment : Payment}
    {attempt : Attempt} (hasked : attempt.payments = pending ++ [payment]) :
    Accounts (attempts ++ [attempt]) (payments ++ [payment])
      (Replay.remaining policy attempt.payments attempt.funding) policy := by
  cases policy with
  | rollForward => exact RollsForward.next h hlength hasked
  | drop => exact Drops.next h hasked

namespace Replay

variable {p : Payer σ} {policy : Policy}

/-- A replay whose payer was called for the payments of some events. -/
structure Served (policy : Policy) (r : Replay (σ × List Attempt))
    (rows : List ScenarioRow) (payments : List Payment) : Prop where
  asked : AreAsked rows payments
  withdrawals : r.withdrawals = payments.length
  length : r.payer.2.length = payments.length
  accounts : Accounts r.payer.2 payments r.pending policy

theorem Does.served {r r' : Replay (σ × List Attempt)} {row : ScenarioRow}
    {payments : List Payment} (hdoes : Does p.watched policy r row r')
    (h : r.Served policy rows payments) : ∃ payments,
    r'.Served policy (rows ++ [row]) payments := by
  cases hdoes with
  | @deposit payer hrow hpayer =>
      have hcalls : payer.2 = r.payer.2 := by
        dsimp only [Payer.watched] at hpayer
        cases hdeposit : p.deposit r.payer.1 row with
        | error fault => simp [hdeposit, Except.map] at hpayer
        | ok state =>
            rw [hdeposit] at hpayer
            rw [← Except.ok.inj hpayer]
      refine ⟨payments, h.asked.deposit hrow, h.withdrawals, ?_, ?_⟩
      · rw [← h.length, ← hcalls]
      · exact hcalls.symm ▸ h.accounts
  | @payment satoshis hrow hamount =>
      refine ⟨_, h.asked.payment hrow hamount, ?_, ?_, ?_⟩
      · rw [List.length_append, List.length_singleton, ← h.withdrawals]
        rfl
      · rw [List.length_append, List.length_singleton, ← h.length]
        exact List.length_append
      · rw [← h.withdrawals]
        exact h.accounts.next h.length rfl

/-- Some rows are all rows of a scenario, or the row after them is refused. -/
inductive Ends (p : Payer σ) (payer : σ)
    (all : List (Except Table.Fault ScenarioRow)) (rows : List ScenarioRow) :
    Option Fault → Prop
  | done (hall : all = rows.map .ok) : Ends p payer all rows none
  | refused {bad : Except Table.Fault ScenarioRow}
      {rest : List (Except Table.Fault ScenarioRow)} {fault : Fault}
      (hall : all = rows.map .ok ++ bad :: rest)
      (hrefuses : Refuses p payer bad fault) :
        Ends p payer all rows (some fault)

/-- A replay calls its payer for the payments of the rows that it carries
out. -/
theorem ofScenario_calls (p : Payer σ) (policy : Policy) (payer : σ)
    (name : String) (bytes : List UInt8) :
    ∃ r fault rows payments,
      ofScenario p.watched policy (payer, []) name bytes = (r, fault) ∧
      Ends p r.payer.1 (scenarioRows bytes) rows fault ∧
      AreAsked rows payments ∧ r.payer.2.length = payments.length ∧
      Accounts r.payer.2 payments r.pending policy := by
  obtain ⟨rows, r, hcarries, hend⟩ :=
    ofScenario_cases p.watched policy (payer, []) name bytes
  obtain ⟨payments, h⟩ : ∃ payments, r.Served policy rows payments := by
    refine hcarries.induction
      (motive := fun rows r => ∃ payments, r.Served policy rows payments)
      ⟨[], areAsked_nil, rfl, rfl, accounts_nil policy⟩ ?_
    rintro before row r₁ r₂ ⟨payments, h⟩ hdoes
    exact hdoes.served h
  -- Neither the end of a replay nor a refused row changes the calls or what is
  -- pending.
  rcases hend with ⟨hall, hend⟩ |
    ⟨bad, rest, fault, statistics, withdrawals, hall, hrefuses, hend⟩
  · exact ⟨r.finish, none, rows, payments, hend, .done hall, h.asked, h.length,
      h.accounts⟩
  · exact ⟨_, some fault, rows, payments, hend,
      .refused hall hrefuses.of_watched, h.asked, h.length, h.accounts⟩

end Replay

/-! ## Simulations -/

namespace Simulation

/-- A simulation whose payer is watched. -/
def watched (s : Simulation σ) : Simulation (σ × List Attempt) :=
  ⟨s.payer.watched, s.policy, (s.state, [])⟩

/-- An outcome without the calls that the payer has kept. -/
def Outcome.unwatched (o : Outcome (σ × List Attempt)) : Outcome σ :=
  { o with state := o.state.1 }

theorem text_unwatched (r : Replay (σ × List Attempt)) (file : ResultFile) :
    file.text r.unwatched = file.text r := by
  cases file <;> rfl

/-- Watching a payer changes nothing that a simulation does. -/
theorem run_watched (s : Simulation σ) (f : Folder) (scenario output : String) :
    (s.run Folder.storage scenario output).run f =
      ((s.watched.run Folder.storage scenario output).run f).map
        .unwatched id := by
  have hreplay (bytes : List UInt8) : s.replay scenario bytes =
      (s.watched.replay scenario bytes).map .unwatched id :=
    Replay.ofScenario_watched s.payer s.policy s.state _ bytes
  rw [run_eq, run_eq]
  cases f.read scenario with
  | error fault => rfl
  | ok contents =>
      dsimp only
      generalize (Folder.storage.ensureDirectories output).run f = ensured
      obtain ⟨fault | -, f₁⟩ := ensured
      · rfl
      · dsimp only
        generalize (createFiles Folder.storage output ResultFile.all).run f₁ =
          created
        obtain ⟨- | fault, f₂⟩ := created
        · cases contents with
          | unreadable fault => rfl
          | bytes bytes =>
              dsimp only
              rw [hreplay bytes]
              simp only [Prod.map_fst, text_unwatched]
              rfl
        · rfl

/-- Whatever the payer does, a simulation loses no payment and makes none twice.
The calls of the payer are told by watching it, which changes nothing.  If the
scenario cannot be read or the files cannot be created, there are none.
Otherwise there is one call for each withdrawal up to the end of the scenario or
to the first row that is refused.  If payments are tried again, a payment is
part of the calls from its own up to the first that does not fail, and of no
others; so the calls that did not fail paid the payments in consecutive blocks,
up to those that are pending, and the amounts add up.  If payments are
forgotten, a payment is part of its own call only. -/
theorem run_pays_once (s : Simulation σ) (f : Folder)
    (scenario output : String) :
    let watched := (s.watched.run Folder.storage scenario output).run f
    (s.run Folder.storage scenario output).run f =
        (watched.1.unwatched, watched.2) ∧
      (∀ bytes, f.read scenario = .ok (.bytes bytes) → Prepares f output →
        ∃ fault rows payments pending,
          watched.1.fault = fault.map .replay ∧
          Replay.Ends s.payer watched.1.state.1 (scenarioRows bytes) rows
            fault ∧
          AreAsked rows payments ∧
          watched.1.state.2.length = payments.length ∧
          Accounts watched.1.state.2 payments pending s.policy) ∧
      ((∀ bytes, f.read scenario = .ok (.bytes bytes) → ¬Prepares f output) →
        watched.1.state = (s.state, []) ∧
        ∃ fault, watched.1.fault = some fault ∧
          ∀ cause, fault ≠ .replay cause) := by
  refine ⟨s.run_watched f scenario output, ?_, ?_⟩
  · intro bytes hread hprepares
    obtain ⟨r, fault, rows, payments, hend, hends, hasked,
        hlength, haccounts⟩ :=
      Replay.ofScenario_calls s.payer s.policy s.state (Path.fileName scenario)
        bytes
    have houtcome := (s.watched.run_of_prepares hread hprepares hend).1
    rw [houtcome]
    exact ⟨fault, rows, payments, r.pending, rfl, hends, hasked, hlength,
      haccounts⟩
  · intro hnot
    obtain ⟨fault, hfault, houtcome⟩ | ⟨bytes, hread, hprepares⟩ :=
      s.watched.run_cases f scenario output
    · rw [houtcome]
      exact ⟨rfl, fault, rfl, hfault⟩
    · exact absurd hprepares (hnot bytes hread)

/-- A payment that the empty wallet fails to make is part of the call for the
next one, which pays both; the wallet pays at a fixed rate. -/
theorem run_pays_once_of_late_deposit :
    let payer : Payer Wallet :=
      { Wallet.payer with
        withdraw := fun w payments _ => w.withdraw payments ⟨250⟩ }
    let s : Simulation Wallet :=
      ⟨payer, .rollForward, { rules := ⟨{}, ⟨2500⟩, 294, 10, 1, 0⟩ }⟩
    let bytes := Text.bytes "-0.0004,0.00001\n0.001,0.00001\n-0.0001,0.00001\n"
    let f : Folder := ⟨[], [(["events.csv"], .file bytes)]⟩
    let watched := (s.watched.run Folder.storage "events.csv" "results").run f
    watched.1.state.2.map (·.payments.map (·.amount)) =
        [[40000], [40000, 10000]] ∧
      f.read "events.csv" = .ok (.bytes bytes) ∧ Prepares f "results" ∧
      ∃ fault rows payments pending,
        watched.1.fault = fault.map .replay ∧
        Replay.Ends s.payer watched.1.state.1 (scenarioRows bytes) rows fault ∧
        AreAsked rows payments ∧
        watched.1.state.2.length = payments.length ∧
        Accounts watched.1.state.2 payments pending s.policy := by
  intro payer s bytes f watched
  have hdone : watched.1.fault = none :=
    Option.isNone_iff_eq_none.mp (by decide +kernel)
  obtain ⟨fault, -, houtcome⟩ | ⟨_, -, hprepares⟩ :=
    s.watched.run_cases f "events.csv" "results"
  · rw [houtcome] at hdone
    exact absurd hdone (Option.some_ne_none _)
  · have hread : f.read "events.csv" = .ok (.bytes bytes) := by decide +kernel
    exact ⟨by decide +kernel, hread, hprepares,
      (s.run_pays_once f "events.csv" "results").2.1 bytes hread hprepares⟩

end Simulation
end ExactSpend
