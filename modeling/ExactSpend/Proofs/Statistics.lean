import Mathlib.Data.List.Infix
import ExactSpend.Proofs.Table.RoundTrip
import ExactSpend.Statistics

/-!
# What statistics tell

Statistics depend on nothing but the scenario's name, the number of deposits and
the records taken in.  Their totals are those of the payments that were made,
and a line of summaries tells these totals under its column names.  Totals in
words are exact as long as they fit.
-/

namespace ExactSpend

/-- The records of payments that were made. -/
def paid (records : List PaymentRecord) : List PaymentRecord :=
  records.filter fun r => r.funding ≠ .failed

/-- The changes that some records tell. -/
def changesOf (records : List PaymentRecord) : List ℕ :=
  (paid records).filterMap (·.change)

/-- The input counts that some records tell; a payment without inputs has
none. -/
def inputCountsOf (records : List PaymentRecord) : List ℕ :=
  ((paid records).filter fun r => !r.inputs.isEmpty).map (·.inputs.length)

/-- The number of inputs that cost more than they were worth. -/
def negativeInputsOf (records : List PaymentRecord) : ℕ :=
  Unsigned.total ((paid records).map (·.negativeInputs.getD 0))

/-- The total that the payments spent beyond their targets. -/
def overpaymentOf (records : List PaymentRecord) : ℤ :=
  Signed.total ((paid records).map (·.overpayment.getD 0))

/-- The number of records of a way to fund a payment. -/
def usesOf (records : List PaymentRecord) (funding : Funding) : ℕ :=
  records.countP (·.funding = funding)

variable {records : List PaymentRecord}

theorem paid_concat (records : List PaymentRecord) (r : PaymentRecord) :
    paid (records ++ [r]) = paid records ++
      if r.funding = .failed then [] else [r] := by
  rw [paid, List.filter_append, List.filter_singleton]
  by_cases h : r.funding = .failed <;> simp [paid, h]

theorem usesOf_concat (records : List PaymentRecord) (r : PaymentRecord)
    (funding : Funding) :
    usesOf (records ++ [r]) funding =
      if r.funding = funding then usesOf records funding + 1
      else usesOf records funding := by
  rw [usesOf, List.countP_append, List.countP_singleton, ← usesOf]
  split <;> simp_all

namespace Usage

/-- The counter of a way that was used so many times. -/
def counterOf (uses : ℕ) : Option ℕ :=
  if uses = 0 then none else some (uses % 4294967296)

theorem next_counterOf (uses : ℕ) :
    next (counterOf uses) = counterOf (uses + 1) := by
  rw [next, counterOf, counterOf, if_neg uses.succ_ne_zero]
  split
  · rename_i hzero
    rw [hzero]
    rfl
  · rw [Option.getD_some, Nat.mod_add_mod]

theorem counter_add (u : Usage) (funding other : Funding) :
    (u.add funding).counter other =
      if funding = other then next (u.counter other) else u.counter other := by
  cases funding <;> cases other <;> rfl

end Usage

namespace Statistics

variable {s : Statistics}

/-! ## Totals -/

/-- Statistics tell the totals of some records. -/
structure Totals (s : Statistics) (records : List PaymentRecord) : Prop where
  balance : s.balance = (records.getLast?.map (·.balance)).getD 0
  coins : s.coins = (records.getLast?.map (·.coinsAfter)).getD 0
  usage : ∀ funding,
    s.usage.counter funding = Usage.counterOf (usesOf records funding)
  negativeInputs : s.negativeInputs = Unsigned.wrap (negativeInputsOf records)
  overpayment : s.overpayment = Signed.wrap (overpaymentOf records)
  changeless : s.changeless = (paid records).countP (·.change.isNone)
  changes : s.changes.toList = changesOf records
  inputCounts : s.inputCounts.toList = inputCountsOf records

theorem usage_record (s : Statistics) (r : PaymentRecord) :
    (s.record r).usage = s.usage.add r.funding := by
  unfold record
  split <;> rfl

theorem totals_empty (scenario : String) (deposits : ℕ) :
    Totals { scenario, deposits } [] := by
  refine ⟨rfl, rfl, fun funding => ?_, rfl, rfl, rfl, rfl, rfl⟩
  cases funding <;> rfl

/-- The statistics have seen a record, whether it is of a payment made or
not. -/
theorem seen_record (s : Statistics) (r : PaymentRecord) :
    (s.record r).balance = r.balance ∧ (s.record r).coins = r.coinsAfter := by
  unfold record
  split <;> exact ⟨rfl, rfl⟩

/-- One record more is one more in every total. -/
theorem Totals.record (h : s.Totals records) (r : PaymentRecord) :
    (s.record r).Totals (records ++ [r]) := by
  have hbalance : (s.record r).balance =
      ((records ++ [r]).getLast?.map (·.balance)).getD 0 := by
    rw [(s.seen_record r).1, List.getLast?_concat]
    rfl
  have hcoins : (s.record r).coins =
      ((records ++ [r]).getLast?.map (·.coinsAfter)).getD 0 := by
    rw [(s.seen_record r).2, List.getLast?_concat]
    rfl
  have husage : ∀ funding, (s.record r).usage.counter funding =
      Usage.counterOf (usesOf (records ++ [r]) funding) := by
    intro funding
    rw [usage_record, Usage.counter_add, h.usage, usesOf_concat]
    split
    · exact Usage.next_counterOf _
    · rfl
  by_cases hfailed : r.funding = .failed
  · have hpaid : paid (records ++ [r]) = paid records := by
      rw [paid_concat, if_pos hfailed, List.append_nil]
    have hseen : s.record r = { s with
        usage := s.usage.add r.funding
        balance := r.balance
        coins := r.coinsAfter
        costToEmpty := r.costToEmpty } := if_pos hfailed
    refine ⟨hbalance, hcoins, husage, ?_, ?_, ?_, ?_, ?_⟩ <;> rw [hseen]
    · rw [negativeInputsOf, hpaid, ← negativeInputsOf, ← h.negativeInputs]
    · rw [overpaymentOf, hpaid, ← overpaymentOf, ← h.overpayment]
    · rw [hpaid, ← h.changeless]
    · rw [changesOf, hpaid, ← changesOf, ← h.changes]
    · rw [inputCountsOf, hpaid, ← inputCountsOf, ← h.inputCounts]
  · have hpaid : paid (records ++ [r]) = paid records ++ [r] := by
      rw [paid_concat, if_neg hfailed]
    have hnegative : Unsigned.wrap (negativeInputsOf (records ++ [r])) =
        Unsigned.wrap (s.negativeInputs + r.negativeInputs.getD 0) := by
      rw [h.negativeInputs, Unsigned.wrap_wrap_add, negativeInputsOf, hpaid,
        List.map_append, Unsigned.total_append, ← negativeInputsOf]
      rfl
    have hoverpayment : Signed.wrap (overpaymentOf (records ++ [r])) =
        Signed.wrap (s.overpayment + r.overpayment.getD 0) := by
      rw [h.overpayment, Signed.wrap_wrap_add, overpaymentOf, hpaid,
        List.map_append, Signed.total_append, ← overpaymentOf,
        List.map_singleton, Signed.total_cons, Signed.total_nil, Int.add_zero]
    refine ⟨hbalance, hcoins, husage, ?_, ?_, ?_, ?_, ?_⟩ <;>
      rw [Statistics.record, if_neg hfailed]
    · rw [hnegative]
    · rw [hoverpayment]
    · rw [hpaid, List.countP_append, ← h.changeless, List.countP_singleton]
      cases r.change <;> rfl
    · rw [changesOf, hpaid, List.filterMap_append, ← changesOf, ← h.changes]
      cases hchange : r.change <;> simp [hchange]
    · rw [inputCountsOf, hpaid, List.filter_append, List.map_append,
        ← inputCountsOf, ← h.inputCounts]
      cases hinputs : r.inputs <;> simp [hinputs]

/-- The statistics of some records after some deposits. -/
def ofRecords (scenario : String) (deposits : ℕ)
    (records : List PaymentRecord) : Statistics :=
  records.foldl record { scenario, deposits }

theorem ofRecords_concat (scenario : String) (deposits : ℕ)
    (records : List PaymentRecord) (r : PaymentRecord) :
    ofRecords scenario deposits (records ++ [r]) =
      (ofRecords scenario deposits records).record r := by
  rw [ofRecords, List.foldl_concat, ← ofRecords]

/-- The statistics with another number of deposits. -/
def withDeposits (s : Statistics) (deposits : ℕ) : Statistics :=
  { s with deposits }

theorem record_withDeposits (s : Statistics) (deposits : ℕ)
    (r : PaymentRecord) :
    (s.withDeposits deposits).record r =
      (s.record r).withDeposits deposits := by
  unfold record
  split <;> rfl

/-- It does not matter when the deposits were counted. -/
theorem withDeposits_ofRecords (scenario : String) (deposits more : ℕ)
    (records : List PaymentRecord) :
    (ofRecords scenario deposits records).withDeposits more =
      ofRecords scenario more records := by
  induction records using List.reverseRecOn with
  | nil => rfl
  | append_singleton records r ih =>
      rw [ofRecords_concat, ofRecords_concat, ← ih, record_withDeposits]

theorem deposits_ofRecords (scenario : String) (deposits : ℕ)
    (records : List PaymentRecord) :
    (ofRecords scenario deposits records).deposits = deposits := by
  rw [← withDeposits_ofRecords scenario deposits deposits, withDeposits]

theorem scenario_ofRecords (scenario : String) (deposits : ℕ)
    (records : List PaymentRecord) :
    (ofRecords scenario deposits records).scenario = scenario := by
  induction records using List.reverseRecOn with
  | nil => rfl
  | append_singleton records r ih =>
      rw [ofRecords_concat, record]
      split <;> exact ih

theorem totals_ofRecords (scenario : String) (deposits : ℕ)
    (records : List PaymentRecord) :
    (ofRecords scenario deposits records).Totals records := by
  induction records using List.reverseRecOn with
  | nil => exact totals_empty scenario deposits
  | append_singleton records r ih =>
      rw [ofRecords_concat]
      exact ih.record r

/-! ## Summaries -/

/-- The words for some numbers of uses, in the order of the ways; a way that was
never used is left out. -/
def usageText (records : List PaymentRecord) (shown : Funding → ℕ) : String :=
  ",".intercalate
    ((Funding.all.filter (usesOf records · ≠ 0)).map fun funding =>
    funding.name ++ ": " ++ toString (shown funding))

/-- What the cells of a line say that is the summary of some records after some
deposits.  Totals in words are told as they are if they fit. -/
structure Summarises (cell : String → Option String) (scenario : String)
    (deposits : ℕ) (records : List PaymentRecord) : Prop where
  scenario : cell "scenario_file" = some scenario
  balance : cell "current_balance" =
    some (toString ((records.getLast?.map (·.balance)).getD 0))
  coins : cell "current_utxo_set_count" =
    some (toString ((records.getLast?.map (·.coinsAfter)).getD 0))
  deposits : cell "deposit_count" = some (toString deposits)
  withdrawals : cell "withdraw_count" = some (toString (paid records).length)
  changed : cell "created_change_outputs_count" =
    some (toString ((paid records).countP (·.change.isSome)))
  changeless : cell "changeless_transaction_count" =
    some (toString ((paid records).countP (·.change.isNone)))
  withdrawals_eq : (paid records).length =
    (paid records).countP (·.change.isSome) +
      (paid records).countP (·.change.isNone)
  inputs : cell "inputs_spent_count" =
    some (toString (Unsigned.total ((paid records).map (·.inputs.length))))
  negativeInputs : cell "negative_effective_valued_inputs_count" =
    some (toString (Unsigned.wrap (negativeInputsOf records)))
  negativeInputs_exact : negativeInputsOf records ≤ unsignedMax →
    cell "negative_effective_valued_inputs_count" =
      some (toString (negativeInputsOf records))
  overpayment : cell "total_overpayment" =
    some (toString (Signed.wrap (overpaymentOf records)))
  overpayment_exact : -signedMax - 1 ≤ overpaymentOf records →
    overpaymentOf records ≤ signedMax →
      cell "total_overpayment" = some (toString (overpaymentOf records))
  minChange : cell "min_change_value" =
    some (Table.optional toString (changesOf records).min?)
  maxChange : cell "max_change_value" =
    some (Table.optional toString (changesOf records).max?)
  minInputs : cell "min_input_set_size" =
    some (Table.optional toString (inputCountsOf records).min?)
  maxInputs : cell "max_input_set_size" =
    some (Table.optional toString (inputCountsOf records).max?)
  usage : cell "usage" =
    some (usageText records fun funding => usesOf records funding % 4294967296)
  usage_exact : records.length < 4294967296 →
    cell "usage" = some (usageText records (usesOf records))
  usage_total : Unsigned.total (Funding.all.map (usesOf records)) =
    records.length

theorem length_eq_countP_change (records : List PaymentRecord) :
    records.length =
      records.countP (·.change.isSome) + records.countP (·.change.isNone) := by
  rw [List.length_eq_countP_add_countP fun r : PaymentRecord => r.change.isSome]
  congr 2
  funext r
  cases r.change <;> rfl

theorem length_changesOf (records : List PaymentRecord) :
    (changesOf records).length = (paid records).countP (·.change.isSome) := by
  rw [changesOf, List.length_filterMap_eq_countP]

theorem total_inputCountsOf (records : List PaymentRecord) :
    Unsigned.total (inputCountsOf records) =
      Unsigned.total ((paid records).map (·.inputs.length)) := by
  rw [inputCountsOf]
  induction paid records with
  | nil => rfl
  | cons r rest ih =>
      cases hinputs : r.inputs with
      | nil => simp [hinputs, ih]
      | cons => simp [hinputs, ih]

/-- Every record counts for one way to fund a payment. -/
theorem total_usesOf (records : List PaymentRecord) :
    Unsigned.total (Funding.all.map (usesOf records)) = records.length := by
  induction records with
  | nil => rfl
  | cons r records ih =>
      simp only [Funding.all, List.map_cons, List.map_nil, Unsigned.total_cons,
        Unsigned.total_nil, usesOf, List.countP_cons] at ih ⊢
      cases r.funding <;> simp <;> omega

theorem usesOf_le (records : List PaymentRecord) (funding : Funding) :
    usesOf records funding ≤ records.length :=
  List.countP_le_length

/-- The counters show the number of uses as far as their words hold it. -/
theorem Totals.usage_text (h : s.Totals records) :
    s.usage.text =
      usageText records fun funding => usesOf records funding % 4294967296 := by
  rw [Usage.text, usageText, ← List.filterMap_eq_map, List.filterMap_filter]
  congr 2
  funext funding
  rw [h.usage, Usage.counterOf]
  by_cases hzero : usesOf records funding = 0 <;> simp [hzero, Usage.entry]

/-- A summary tells the totals of the records taken in under its column
names. -/
theorem summarises_ofRecords (scenario : String) (deposits : ℕ)
    (records : List PaymentRecord) :
    Summarises (Table.cellOf columns (ofRecords scenario deposits records))
      scenario deposits records := by
  have h := totals_ofRecords scenario deposits records
  have hdeposits := deposits_ofRecords scenario deposits records
  have hscenario := scenario_ofRecords scenario deposits records
  generalize ofRecords scenario deposits records = s at h hdeposits hscenario ⊢
  have hchanged : s.changes.size = (paid records).countP (·.change.isSome) := by
    rw [← Array.length_toList, h.changes, length_changesOf]
  have hwithdrawals : s.withdrawals = (paid records).length := by
    rw [withdrawals, h.changeless, hchanged,
      length_eq_countP_change, Nat.add_comm]
  have hinputs : Unsigned.total s.inputCounts.toList =
      Unsigned.total ((paid records).map (·.inputs.length)) := by
    rw [h.inputCounts, total_inputCountsOf]
  have hfits (hlength : records.length < 4294967296) (funding : Funding) :
      usesOf records funding % 4294967296 = usesOf records funding :=
    Nat.mod_eq_of_lt (Nat.lt_of_le_of_lt (usesOf_le records funding) hlength)
  exact {
    scenario := congrArg some hscenario
    balance := congrArg (some ∘ toString) h.balance
    coins := congrArg (some ∘ toString) h.coins
    deposits := congrArg (some ∘ toString) hdeposits
    withdrawals := congrArg (some ∘ toString) hwithdrawals
    changed := congrArg (some ∘ toString) hchanged
    changeless := congrArg (some ∘ toString) h.changeless
    withdrawals_eq := length_eq_countP_change _
    inputs := congrArg (some ∘ toString) hinputs
    negativeInputs := congrArg (some ∘ toString) h.negativeInputs
    negativeInputs_exact := fun hmax => congrArg (some ∘ toString)
      (h.negativeInputs.trans (Unsigned.wrap_of_le hmax))
    overpayment := congrArg (some ∘ toString) h.overpayment
    overpayment_exact := fun hmin hmax => congrArg (some ∘ toString)
      (h.overpayment.trans (Signed.wrap_of_mem hmin hmax))
    minChange := congrArg (some ∘ Table.optional toString ∘ List.min?) h.changes
    maxChange := congrArg (some ∘ Table.optional toString ∘ List.max?) h.changes
    minInputs :=
      congrArg (some ∘ Table.optional toString ∘ List.min?) h.inputCounts
    maxInputs :=
      congrArg (some ∘ Table.optional toString ∘ List.max?) h.inputCounts
    usage := congrArg some h.usage_text
    usage_exact := fun hlength => congrArg some
      (h.usage_text.trans
        (congrArg (usageText records) (funext (hfits hlength))))
    usage_total := total_usesOf records }

end Statistics
end ExactSpend
