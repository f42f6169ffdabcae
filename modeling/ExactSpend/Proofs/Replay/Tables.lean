import ExactSpend.Proofs.Replay.Files
import ExactSpend.Proofs.Replay.Runs
import ExactSpend.Proofs.Statistics
import ExactSpend.Proofs.Table.RoundTrip
import ExactSpend.Wallet.Withdrawal

/-!
# The tables of a replay

The four tables stay in step with the withdrawals carried out: each withdrawal
has one row under its number in the tables of coins, inputs and records, and the
samples are the statistics of the records up to every five hundredth of them.
-/

namespace ExactSpend

variable {σ : Type} {p : Payer σ} {policy : Policy}
variable {rows : List ScenarioRow} {row : ScenarioRow}

/-! ## Events before a withdrawal -/

/-- The number of deposits before a withdrawal; withdrawals are counted from
one. -/
def depositsBefore : List ScenarioRow → ℕ → ℕ
  | [], _ => 0
  | row :: rows, n =>
    if row.isDeposit then depositsBefore rows n + 1
    else if n ≤ 1 then 0 else depositsBefore rows (n - 1)

theorem depositCount_concat (rows : List ScenarioRow) (row : ScenarioRow) :
    depositCount (rows ++ [row]) =
      depositCount rows + if row.isDeposit then 1 else 0 := by
  rw [depositCount, List.countP_append, List.countP_singleton, ← depositCount]

theorem withdrawalCount_concat (rows : List ScenarioRow) (row : ScenarioRow) :
    withdrawalCount (rows ++ [row]) =
      withdrawalCount rows + if row.isDeposit then 0 else 1 := by
  rw [withdrawalCount, List.countP_append, List.countP_singleton,
    ← withdrawalCount]
  cases row.isDeposit <;> rfl

/-- What comes after a withdrawal changes nothing before it. -/
theorem depositsBefore_append (more : List ScenarioRow) {n : ℕ} (hpos : 0 < n)
    (h : n ≤ withdrawalCount rows) :
    depositsBefore (rows ++ more) n = depositsBefore rows n := by
  induction rows generalizing n with
  | nil => exact absurd h (by simpa [withdrawalCount] using hpos.ne')
  | cons first rows ih =>
      rw [withdrawalCount, List.countP_cons, ← withdrawalCount] at h
      rw [List.cons_append, depositsBefore, depositsBefore]
      cases hfirst : first.isDeposit with
      | true => rw [if_pos rfl, if_pos rfl, ih hpos (by simpa [hfirst] using h)]
      | false =>
          rw [if_neg Bool.false_ne_true, if_neg Bool.false_ne_true]
          split
          · rfl
          · exact ih (by omega) (by simp [hfirst] at h; omega)

theorem depositsBefore_concat (hrow : row.isDeposit = false) :
    depositsBefore (rows ++ [row]) (withdrawalCount rows + 1) =
      depositCount rows := by
  induction rows with
  | nil => simp [depositsBefore, withdrawalCount, depositCount, hrow]
  | cons first rows ih =>
      rw [List.cons_append, depositsBefore, withdrawalCount, depositCount,
        List.countP_cons, List.countP_cons, ← withdrawalCount, ← depositCount]
      cases hfirst : first.isDeposit <;> simp [ih]

/-! ## Samples -/

/-- The withdrawals after which a sample is taken, among so many. -/
def sampledAt (withdrawals : ℕ) : List ℕ :=
  (List.range' 1 (withdrawals / Replay.sampleInterval)).map
    (Replay.sampleInterval * ·)

theorem sampledAt_succ (n : ℕ) :
    sampledAt (n + 1) =
      sampledAt n ++ if (n + 1) % Replay.sampleInterval = 0 then
        [n + 1] else [] := by
  rw [sampledAt, sampledAt, Nat.succ_div]
  by_cases h : (n + 1) % Replay.sampleInterval = 0
  · have hdvd : Replay.sampleInterval ∣ n + 1 := Nat.dvd_of_mod_eq_zero h
    have hlast : Replay.sampleInterval *
        (1 + 1 * (n / Replay.sampleInterval)) = n + 1 := by
      have hdiv := Nat.succ_div_of_dvd hdvd
      rw [Nat.one_mul, Nat.add_comm 1, ← hdiv, Nat.mul_div_cancel' hdvd]
    rw [if_pos hdvd, if_pos h, List.range'_concat, List.map_append,
      List.map_singleton, hlast]
  · rw [if_neg fun hdvd => h (Nat.mod_eq_zero_of_dvd hdvd), if_neg h,
      List.append_nil, Nat.add_zero]

theorem mem_sampledAt {withdrawals n : ℕ} (h : n ∈ sampledAt withdrawals) :
    0 < n ∧ n ≤ withdrawals := by
  obtain ⟨j, hj, rfl⟩ := List.mem_map.mp h
  have hj : 1 ≤ j ∧ j < 1 + withdrawals / Replay.sampleInterval :=
    List.mem_range'_1.mp hj
  refine ⟨Nat.mul_pos (by decide) hj.1, ?_⟩
  calc Replay.sampleInterval * j
      ≤ Replay.sampleInterval * (withdrawals / Replay.sampleInterval) :=
        Nat.mul_le_mul_left _ (by omega)
    _ ≤ withdrawals := Nat.mul_div_le _ _

/-- The statistics after every withdrawal that is sampled. -/
def samplesOf (name : String) (rows : List ScenarioRow)
    (records : List PaymentRecord) :
    List Statistics :=
  (sampledAt (withdrawalCount rows)).map fun n =>
    .ofRecords name (depositsBefore rows n) (records.take n)

/-- Later events and records change no sample. -/
theorem samplesOf_append {name : String} {records : List PaymentRecord}
    (hlength : records.length = withdrawalCount rows)
    (moreRows : List ScenarioRow) (moreRecords : List PaymentRecord) :
    samplesOf name rows records =
      (sampledAt (withdrawalCount rows)).map fun n =>
      .ofRecords name (depositsBefore (rows ++ moreRows) n)
        ((records ++ moreRecords).take n) := by
  refine List.map_congr_left fun n hn => ?_
  obtain ⟨hpos, hle⟩ := mem_sampledAt hn
  rw [depositsBefore_append _ hpos hle,
    List.take_append_of_le_length (hlength ▸ hle)]

theorem samplesOf_deposit {name : String} {records : List PaymentRecord}
    (hlength : records.length = withdrawalCount rows)
    (hrow : row.isDeposit = true) :
    samplesOf name (rows ++ [row]) records = samplesOf name rows records := by
  rw [samplesOf_append hlength [row] [], samplesOf, withdrawalCount_concat,
    hrow, if_pos rfl, List.append_nil, Nat.add_zero]

theorem samplesOf_withdrawal {name : String} {records : List PaymentRecord}
    (hlength : records.length = withdrawalCount rows)
    (hrow : row.isDeposit = false) (record : PaymentRecord) :
    samplesOf name (rows ++ [row]) (records ++ [record]) =
      samplesOf name rows records ++
        if (withdrawalCount rows + 1) % Replay.sampleInterval = 0 then
          [.ofRecords name (depositCount rows) (records ++ [record])] else
            [] := by
  -- The sample of this withdrawal covers all records, its own included.
  have htake : (records ++ [record]).take (withdrawalCount rows + 1) =
      records ++ [record] :=
    List.take_of_length_le
      (by rw [List.length_append, hlength, List.length_singleton])
  rw [samplesOf_append hlength [row] [record], samplesOf,
    withdrawalCount_concat, hrow, if_neg Bool.false_ne_true, sampledAt_succ,
    List.map_append]
  congr 1
  split
  · rw [List.map_singleton, depositsBefore_concat hrow, htake]
  · rfl

namespace Replay

/-- The rows written by a replay are in step with the events it has carried
out. -/
structure Tallied (name : String) (r : Replay σ)
    (rows : List ScenarioRow) : Prop where
  withdrawals : r.withdrawals = withdrawalCount rows
  recordIds : r.records.toList.map (·.id) = List.range' 1 (withdrawalCount rows)
  coinIds : r.coinRows.toList.map (·.id) = List.range' 1 (withdrawalCount rows)
  inputRows : r.inputRows.toList =
    r.records.toList.map fun record => ⟨record.id, record.inputs⟩
  statistics :
    r.statistics = .ofRecords name (depositCount rows) r.records.toList
  samples : r.samples.toList = samplesOf name rows r.records.toList

variable {name : String} {r r' : Replay σ}

theorem tallied_start (payer : σ) (name : String) :
    (start payer name).Tallied name [] :=
  ⟨rfl, rfl, rfl, rfl, rfl, rfl⟩

theorem Tallied.length_records (h : r.Tallied name rows) :
    r.records.toList.length = withdrawalCount rows := by
  rw [← List.length_map (·.id), h.recordIds, List.length_range']

/-- A deposit adds to the number of deposits only. -/
theorem Tallied.deposit (h : r.Tallied name rows)
    (hrow : row.isDeposit = true) (payer : σ) :
    Tallied name { r.countDeposit with payer } (rows ++ [row]) := by
  have hwithdrawals :
      withdrawalCount (rows ++ [row]) = withdrawalCount rows := by
    rw [withdrawalCount_concat, hrow, if_pos rfl, Nat.add_zero]
  have hstatistics : r.statistics.withDeposits (r.statistics.deposits + 1) =
      .ofRecords name (depositCount (rows ++ [row])) r.records.toList := by
    rw [h.statistics, Statistics.withDeposits_ofRecords,
      Statistics.deposits_ofRecords, depositCount_concat, hrow, if_pos rfl]
  exact {
    withdrawals := hwithdrawals ▸ h.withdrawals
    recordIds := hwithdrawals ▸ h.recordIds
    coinIds := hwithdrawals ▸ h.coinIds
    inputRows := h.inputRows
    statistics := hstatistics
    samples := h.samples.trans (samplesOf_deposit h.length_records hrow).symm }

/-- A payment adds a row to each table under the number of the withdrawal
counted last, and takes its record into the statistics before they are
sampled. -/
theorem pay_rows (p : Payer σ) (policy : Policy) (r : Replay σ)
    (payment : Payment) (rate : Float32) :
    ∃ record : PaymentRecord, record.id = r.withdrawals ∧
      (r.pay p policy payment rate).withdrawals = r.withdrawals ∧
      (r.pay p policy payment rate).coinRows =
        r.coinRows.push ⟨r.withdrawals, p.amounts r.payer⟩ ∧
      (r.pay p policy payment rate).inputRows =
        r.inputRows.push ⟨r.withdrawals, record.inputs⟩ ∧
      (r.pay p policy payment rate).records = r.records.push record ∧
      (r.pay p policy payment rate).statistics = r.statistics.record record ∧
      (r.pay p policy payment rate).samples =
        if r.withdrawals % sampleInterval = 0 then
          r.samples.push (r.statistics.record record)
        else r.samples :=
  ⟨_, rfl, rfl, rfl, rfl, rfl, rfl, rfl⟩

theorem Tallied.payment (h : r.Tallied name rows) (hrow : row.isDeposit = false)
    (payment : Payment) (rate : Float32) :
    (r.countWithdrawal.pay p policy payment rate).Tallied name
      (rows ++ [row]) := by
  have hnext : r.countWithdrawal.withdrawals = withdrawalCount rows + 1 :=
    congrArg (· + 1) h.withdrawals
  have hwithdrawals :
      withdrawalCount (rows ++ [row]) = withdrawalCount rows + 1 := by
    rw [withdrawalCount_concat, hrow, if_neg Bool.false_ne_true]
  have hdeposits : depositCount (rows ++ [row]) = depositCount rows := by
    rw [depositCount_concat, hrow, if_neg Bool.false_ne_true, Nat.add_zero]
  have hids : List.range' 1 (withdrawalCount (rows ++ [row])) =
      List.range' 1 (withdrawalCount rows) ++
        [r.countWithdrawal.withdrawals] := by
    rw [hwithdrawals, List.range'_concat, hnext, Nat.one_mul, Nat.add_comm 1]
  obtain ⟨record, hid, hcount, hcoins, hinputs, hrecords,
      hstatistics, hsamples⟩ :=
    pay_rows p policy r.countWithdrawal payment rate
  have hlast : r.countWithdrawal.statistics.record record =
      .ofRecords name (depositCount rows) (r.records.toList ++ [record]) := by
    rw [Statistics.ofRecords_concat, ← h.statistics]
    rfl
  have hall :
      r.countWithdrawal.records.push record = r.records.push record := rfl
  rw [hall] at hrecords
  refine ⟨?_, ?_, ?_, ?_, ?_, ?_⟩
  · rw [hcount, hnext, hwithdrawals]
  · rw [hrecords, Array.toList_push, List.map_append, h.recordIds,
      List.map_singleton, hid, hids]
  · rw [hcoins, Array.toList_push, List.map_append, List.map_singleton,
      hids, ← h.coinIds]
    rfl
  · rw [hinputs, hrecords, Array.toList_push, Array.toList_push,
      List.map_append, List.map_singleton, hid, ← h.inputRows]
    rfl
  · rw [hstatistics, hrecords, hlast, hdeposits, Array.toList_push]
  · rw [hsamples, hrecords, Array.toList_push,
      samplesOf_withdrawal h.length_records hrow, ← h.samples, hnext, hlast]
    split
    · exact Array.toList_push
    · exact (List.append_nil _).symm

theorem Does.tallied (hdoes : Does p policy r row r')
    (h : r.Tallied name rows) :
    r'.Tallied name (rows ++ [row]) := by
  cases hdoes with
  | deposit hrow _ => exact h.deposit hrow _
  | payment hrow _ => exact h.payment hrow _ _

theorem Carries.tallied {payer : σ}
    (h : (start payer name).Carries p policy rows r) : r.Tallied name rows :=
  h.induction (motive := fun rows r => r.Tallied name rows)
    (tallied_start payer name) fun hbefore hdoes => hdoes.tallied hbefore

end Replay

/-! ## Files -/

/-- The records of the table at a path, if there is one whose fields are
texts. -/
def Folder.table (f : Folder) (path : String) : Option (List (List String)) :=
  match f.read path with
  | .ok (.bytes bytes) => Table.records? bytes
  | _ => none

/-- What the table at a path says in a line and a column.  Its first record
names the columns, and the lines behind it count from zero. -/
def Folder.cell (f : Folder) (path : String) (line : ℕ) (column : String) :
    Option String :=
  match f.table path with
  | some (names :: lines) =>
    lines[line]?.bind fun fields => (names.zip fields).lookup column
  | _ => none

theorem Folder.table_eq {f : Folder} {path text : String}
    (h : f.read path = .ok (.bytes (Text.bytes text))) :
    f.table path = Table.records? (Text.bytes text) := by
  rw [table, h]

theorem Folder.cell_eq {f : Folder} {path : String}
    {columns : List (Table.Column α)} {values : List α}
    (h : f.table path = some (Table.tabulated columns values)) {i : ℕ}
    (hi : i < values.length) :
    f.cell path i = Table.cellOf columns values[i] := by
  have hvalues : values ≠ [] := List.ne_nil_of_length_pos (Nat.zero_lt_of_lt hi)
  funext column
  rw [cell, h, Table.tabulated_of_ne_nil columns hvalues]
  simp only [List.getElem?_map, List.getElem?_eq_getElem hi, Option.map_some,
    Option.bind_some, Table.cellOf, List.zip_map']

/-- Some lists of amounts as lines, each behind its number; the numbers count
from one. -/
def numberedLines (lists : List (List ℕ)) : List (List String) :=
  (lists.zipIdx 1).map fun (amounts, number) =>
    [toString number, ",".intercalate (amounts.map toString)]

theorem records?_amounts {amountRows : List AmountsRow} {count : ℕ}
    (h : amountRows.map (·.id) = List.range' 1 count) :
    Table.records?
        (Text.bytes (String.join (amountRows.map ResultFile.amountsLine))) =
      some (numberedLines (amountRows.map (·.amounts))) := by
  have hcount : (amountRows.map (·.amounts)).length = count := by
    rw [List.length_map, ← List.length_map (·.id), h, List.length_range']
  have hnumbers : (amountRows.map (·.amounts)).zipIdx 1 =
      amountRows.map fun row => (row.amounts, row.id) := by
    rw [List.zipIdx_eq_zip_range', hcount, ← h, List.zip_map']
  have hlines : amountRows.map ResultFile.amountsLine =
      (numberedLines (amountRows.map (·.amounts))).map Table.line := by
    rw [numberedLines, hnumbers, List.map_map, List.map_map]
    rfl
  rw [hlines]
  cases amountRows with
  | nil => rfl
  | cons first others =>
      refine Table.records?_lines (by decide) fun fields hfields => ?_
      obtain ⟨_, -, rfl⟩ := List.mem_map.mp hfields
      exact List.cons_ne_nil _ _

theorem records?_records (r : Replay σ) :
    Table.records? (Text.bytes (ResultFile.records.text r)) =
      some (Table.tabulated PaymentRecord.columns r.records.toList) :=
  Table.records?_withHeader rfl (by decide) _

theorem records?_samples (r : Replay σ) :
    Table.records? (Text.bytes (ResultFile.samples.text r)) =
      some (Table.tabulated Statistics.columns r.samples.toList) :=
  Table.records?_withHeader rfl (by decide) _

/-- What the cells of a line say that is a payment record under a number. -/
structure PaymentRecord.Tells (record : PaymentRecord) (number : ℕ)
    (cell : String → Option String) : Prop where
  id : cell "id" = some (toString number)
  amount : cell "amount" = some (toString record.amount)
  fee : cell "fee" = some (Table.optional toString record.fee)
  targetRate :
    cell "target_feerate" = some (Decimal.tableText record.targetRate)
  realRate : cell "real_feerate" =
    some (Table.optional Decimal.tableText record.realRate)
  funding : cell "algorithm" = some record.funding.name
  inputs : cell "input_count" =
    some (if record.inputs.isEmpty then "" else toString record.inputs.length)
  negativeInputs : cell "negative_effective_valued_inputs" =
    some (Table.optional toString record.negativeInputs)
  outputs : cell "output_count" = some (Table.optional toString record.outputs)
  change : cell "change_amount" = some (Table.optional toString record.change)
  coinsBefore : cell "utxo_count_before_payment" =
    some (toString record.coinsBefore)
  coinsAfter : cell "utxo_count_after_payment" =
    some (toString record.coinsAfter)
  subsets : cell "changeless_candidates" = some (toString record.subsets)
  overpayment : cell "overpayment" =
    some (Table.optional toString record.overpayment)

theorem PaymentRecord.tells_cellOf (record : PaymentRecord) :
    record.Tells record.id (Table.cellOf columns record) :=
  ⟨rfl, rfl, rfl, rfl, rfl, rfl, rfl, rfl, rfl, rfl, rfl, rfl, rfl, rfl⟩

/-- The statistics in the summaries of a finished replay: every five hundredth
withdrawal has its own, and the last are of all records. -/
def summariesOf (name : String) (rows : List ScenarioRow)
    (records : List PaymentRecord) : List Statistics :=
  samplesOf name rows records ++ [.ofRecords name (depositCount rows) records]

theorem length_samplesOf (name : String) (rows : List ScenarioRow)
    (records : List PaymentRecord) :
    (samplesOf name rows records).length = withdrawalCount rows / 500 := by
  rw [samplesOf, List.length_map, sampledAt, List.length_map,
    List.length_range', Replay.sampleInterval]

theorem getElem_samplesOf {name : String} {records : List PaymentRecord} {j : ℕ}
    (hj : j < (samplesOf name rows records).length) :
    (samplesOf name rows records)[j] =
      .ofRecords name (depositsBefore rows (500 * (j + 1)))
        (records.take (500 * (j + 1))) := by
  simp [samplesOf, sampledAt, Replay.sampleInterval, Nat.add_comm 1 j]

/-- The tables in a directory are those of some events and records. -/
structure HasTables (f : Folder) (output scenario : String)
    (rows : List ScenarioRow) (records : List PaymentRecord) : Prop where
  /-- There is one record for each withdrawal. -/
  length : records.length = withdrawalCount rows
  recordTable : f.table (Path.join output "full_results.csv") =
    some (Table.tabulated PaymentRecord.columns records)
  /-- The lines tell the records in order, under numbers that count from one. -/
  recordCells : ∀ i (hi : i < records.length),
    records[i].Tells (i + 1) (f.cell (Path.join output "full_results.csv") i)
  inputTable : f.table (Path.join output "inputs.csv") =
    some (numberedLines (records.map (·.inputs)))
  coinTable : ∃ coins, coins.length = withdrawalCount rows ∧
    f.table (Path.join output "utxos.csv") = some (numberedLines coins)
  /-- There is a summary for every five hundredth withdrawal and one at the
  end. -/
  summaryCount : ∃ names lines,
    f.table (Path.join output "results.csv") = some (names :: lines) ∧
    lines.length = withdrawalCount rows / 500 + 1
  summaryTable : f.table (Path.join output "results.csv") =
    some (Table.tabulated Statistics.columns
      (summariesOf scenario rows records))
  /-- A summary is of the records up to its own withdrawal. -/
  summaryCells : ∀ j < withdrawalCount rows / 500,
    Statistics.Summarises (f.cell (Path.join output "results.csv") j) scenario
      (depositsBefore rows (500 * (j + 1))) (records.take (500 * (j + 1)))
  /-- The last summary is of all records. -/
  lastCells : Statistics.Summarises
    (f.cell (Path.join output "results.csv") (withdrawalCount rows / 500))
    scenario (depositCount rows) records

/-- A finished replay writes the tables of the events it has carried out. -/
theorem Replay.Tallied.hasTables {r : Replay σ} {f : Folder}
    {output name : String} (h : r.Tallied name rows)
    (hfiles : ∀ file : ResultFile, f.read (Path.join output file.name) =
      .ok (.bytes (Text.bytes (file.text r.finish)))) :
    HasTables f output name rows r.records.toList := by
  have hinputIds : r.inputRows.toList.map (·.id) =
      List.range' 1 (withdrawalCount rows) := by
    rw [h.inputRows, List.map_map, ← h.recordIds]
    rfl
  have hinputs : r.inputRows.toList.map (·.amounts) =
      r.records.toList.map (·.inputs) := by
    rw [h.inputRows, List.map_map]
    rfl
  have hsummaries : r.finish.samples.toList =
      summariesOf name rows r.records.toList := by
    rw [summariesOf, ← h.samples, ← h.statistics]
    exact Array.toList_push
  have hrecordTable : f.table (Path.join output "full_results.csv") =
      some (Table.tabulated PaymentRecord.columns r.records.toList) :=
    (Folder.table_eq (hfiles .records)).trans (records?_records _)
  have hsummaryTable : f.table (Path.join output "results.csv") =
      some (Table.tabulated Statistics.columns
        (summariesOf name rows r.records.toList)) := by
    rw [← hsummaries]
    exact (Folder.table_eq (hfiles .samples)).trans (records?_samples _)
  have hcoinTable : f.table (Path.join output "utxos.csv") =
      some (numberedLines (r.coinRows.toList.map (·.amounts))) :=
    (Folder.table_eq (hfiles .coins)).trans (records?_amounts h.coinIds)
  have hlength := length_samplesOf name rows r.records.toList
  refine ⟨h.length_records, hrecordTable, ?_, ?_, ?_, ?_, hsummaryTable, ?_, ?_⟩
  · intro i hi
    have hid : r.records.toList[i].id = i + 1 := by
      have hids := List.getElem_of_eq h.recordIds
        (i := i) (by rwa [List.length_map])
      rw [List.getElem_map, List.getElem_range'] at hids
      omega
    rw [Folder.cell_eq hrecordTable hi, ← hid]
    exact r.records.toList[i].tells_cellOf
  · rw [← hinputs]
    exact (Folder.table_eq (hfiles .inputs)).trans (records?_amounts hinputIds)
  · refine ⟨_, ?_, hcoinTable⟩
    rw [List.length_map, ← List.length_map (·.id), h.coinIds,
      List.length_range']
  · have hnames := Table.tabulated_of_ne_nil Statistics.columns
      (List.concat_ne_nil (.ofRecords name (depositCount rows) r.records.toList)
        (samplesOf name rows r.records.toList))
    refine ⟨_, _, hsummaryTable.trans (congrArg some hnames), ?_⟩
    rw [List.length_map, List.length_append, hlength, List.length_singleton]
  · intro j hj
    have hmem : j < (summariesOf name rows r.records.toList).length := by
      rw [summariesOf, List.length_append, hlength]
      omega
    rw [Folder.cell_eq hsummaryTable hmem]
    simp only [summariesOf]
    rw [List.getElem_append_left (hlength ▸ hj), getElem_samplesOf]
    exact Statistics.summarises_ofRecords _ _ _
  · have hmem : withdrawalCount rows / 500 <
        (summariesOf name rows r.records.toList).length := by
      rw [summariesOf, List.length_append, hlength, List.length_singleton]
      exact Nat.lt_succ_self _
    rw [Folder.cell_eq hsummaryTable hmem]
    simp only [summariesOf]
    rw [List.getElem_concat_length hlength.symm]
    exact Statistics.summarises_ofRecords _ _ _

/-- A replay that meets no fault leaves the tables of all events of the
scenario. -/
theorem Simulation.run_hasTables (s : Simulation σ) (f : Folder)
    (scenario output : String)
    (hdone : ((s.run Folder.storage scenario output).run f).1.fault = none) :
    ∃ bytes rows records, f.read scenario = .ok (.bytes bytes) ∧
      scenarioRows bytes = rows.map .ok ∧
      HasTables ((s.run Folder.storage scenario output).run f).2 output
        (Path.fileName scenario) rows records := by
  obtain ⟨fault, -, hfault⟩ | ⟨bytes, hread, hprepares⟩ :=
    s.run_cases f scenario output
  · rw [hfault] at hdone
    exact absurd hdone (Option.some_ne_none _)
  obtain ⟨rows, r, hcarries, ⟨hall, hend⟩ | ⟨_, _, _, _, _, -, -, hend⟩⟩ :=
    Replay.ofScenario_cases s.payer s.policy s.state
      (Path.fileName scenario) bytes
  · have hfiles := (s.run_of_prepares hread hprepares hend).2
    exact ⟨bytes, rows, r.records.toList, hread, hall,
      hcarries.tallied.hasTables hfiles⟩
  · rw [(s.run_of_prepares hread hprepares hend).1] at hdone
    exact absurd hdone (Option.some_ne_none _)

/-- A fresh wallet takes a deposit and pays two payments, of which the second is
too large. -/
theorem Simulation.run_hasTables_of_three_events :
    let s : Simulation Wallet :=
      ⟨Wallet.payer, .rollForward, { rules := ⟨{}, ⟨2500⟩, 294, 10, 1, 0⟩ }⟩
    let bytes := Text.bytes "0.001,0.00001\n-0.0004,0.00001\n-1,0.00001\n"
    let f : Folder := ⟨[], [(["events.csv"], .file bytes)]⟩
    ((s.run Folder.storage "events.csv" "results").run f).1.fault = none ∧
      ∃ bytes rows records, f.read "events.csv" = .ok (.bytes bytes) ∧
        scenarioRows bytes = rows.map .ok ∧
        HasTables ((s.run Folder.storage "events.csv" "results").run f).2
          "results" (Path.fileName "events.csv") rows records := by
  intro s bytes f
  have hdone : ((s.run Folder.storage "events.csv" "results").run f).1.fault =
      none := Option.isNone_iff_eq_none.mp (by decide +kernel)
  exact ⟨hdone, s.run_hasTables f "events.csv" "results" hdone⟩

end ExactSpend
