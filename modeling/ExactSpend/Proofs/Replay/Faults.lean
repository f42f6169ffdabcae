import ExactSpend.Proofs.Replay.Files
import ExactSpend.Proofs.Replay.Runs
import ExactSpend.Proofs.Table.Prefixes
import ExactSpend.Wallet.Withdrawal

/-!
# Replays that end early

An event that is refused leaves nothing behind.  A replay that ends with it
leaves the payer and the files as a replay of the events before it does, which
has one more summary at its end.
-/

namespace ExactSpend

variable {σ : Type}

/-- The files of a replay in one folder are those in another one, but for the
last summary, which is missing. -/
structure LacksSummary (f f' : Folder) (output : String) : Prop where
  others : ∀ file : ResultFile, file ≠ .samples → ∃ text,
    f.read (Path.join output file.name) = .ok (.bytes (Text.bytes text)) ∧
    f'.read (Path.join output file.name) = .ok (.bytes (Text.bytes text))
  samples : ∃ samples last,
    f.read (Path.join output ResultFile.samples.name) =
      .ok (.bytes (Text.bytes (Table.withHeader Statistics.columns samples))) ∧
    f'.read (Path.join output ResultFile.samples.name) =
      .ok (.bytes (Text.bytes
        (Table.withHeader Statistics.columns (samples ++ [last]))))

/-- The counters of a replay that ends early go into none of its files, and its
end adds nothing but a summary. -/
theorem lacksSummary_of_reads {r : Replay σ} {statistics : Statistics}
    {withdrawals : ℕ} {f f' : Folder} {output : String}
    (h : ∀ file : ResultFile, f.read (Path.join output file.name) =
      .ok (.bytes (Text.bytes (file.text { r with statistics, withdrawals }))))
    (h' : ∀ file : ResultFile, f'.read (Path.join output file.name) =
      .ok (.bytes (Text.bytes (file.text r.finish)))) :
    LacksSummary f f' output := by
  have hsamples :
      r.finish.samples.toList = r.samples.toList ++ [r.statistics] :=
    Array.toList_push
  refine ⟨fun file hfile => ⟨file.text r, ?_, ?_⟩,
    r.samples.toList, r.statistics, h .samples, ?_⟩
  · rw [h file]
    cases file <;> rfl
  · rw [h' file]
    cases file <;> first | rfl | exact absurd rfl hfile
  · rw [h' .samples, ResultFile.text, hsamples]

/-- A replay that ends at a row which is malformed or refused leaves what a
replay of the rows before it leaves: the payer's state and the files, but for
the last summary.  The shorter replay is that of the beginning of the same
scenario, in a folder that is otherwise the same. -/
theorem Simulation.run_refused (s : Simulation σ) (f : Folder)
    (scenario output : String) {fault : Replay.Fault}
    (hfault : ((s.run Folder.storage scenario output).run f).1.fault =
      some (.replay fault)) :
    ∃ (bytes : List UInt8) (rows : List ScenarioRow)
      (bad : Except Table.Fault ScenarioRow)
      (rest : List (Except Table.Fault ScenarioRow)) (front : List UInt8),
      f.read scenario = .ok (.bytes bytes) ∧
      scenarioRows bytes = rows.map .ok ++ bad :: rest ∧
      Replay.Refuses s.payer
        ((s.run Folder.storage scenario output).run f).1.state bad fault ∧
      front <+: bytes ∧ scenarioRows front = rows.map .ok ∧
      let f' := f.withBytes scenario front
      f'.read scenario = .ok (.bytes front) ∧
      ((s.run Folder.storage scenario output).run f').1.fault = none ∧
      ((s.run Folder.storage scenario output).run f').1.state =
        ((s.run Folder.storage scenario output).run f).1.state ∧
      LacksSummary ((s.run Folder.storage scenario output).run f).2
        ((s.run Folder.storage scenario output).run f').2 output := by
  obtain ⟨other, hother, houtcome⟩ | ⟨bytes, hread, hprepares⟩ :=
    s.run_cases f scenario output
  · rw [houtcome] at hfault
    exact absurd (Option.some.inj hfault) (hother fault)
  obtain ⟨rows, r, hcarries, ⟨-, hend⟩ |
      ⟨bad, rest, fault', statistics, withdrawals, hall, hrefuses, hend⟩⟩ :=
    Replay.ofScenario_cases s.payer s.policy s.state
      (Path.fileName scenario) bytes
  · rw [(s.run_of_prepares hread hprepares hend).1] at hfault
    exact absurd hfault.symm (Option.some_ne_none _)
  obtain ⟨houtcome, hfiles⟩ := s.run_of_prepares hread hprepares hend
  -- The rows before the refused one are those of a beginning of the scenario,
  -- and its replay carries out the same events.
  obtain ⟨front, hprefix, hfront⟩ :=
    exists_prefix_scenarioRows bytes rows.length
  have hrows : scenarioRows front = rows.map .ok := by
    rw [hfront, hall, List.take_left' (List.length_map _)]
  have hread' := Folder.read_withBytes hread front
  have hprepares' :=
    hprepares.of_sameShape (Folder.sameShape_withBytes hread front)
  obtain ⟨houtcome', hfiles'⟩ :=
    s.run_of_prepares hread' hprepares' (hcarries.ofScenario_eq hrows)
  obtain rfl : fault' = fault := by
    rw [houtcome] at hfault
    simpa using hfault
  refine ⟨bytes, rows, bad, rest, front, hread, hall, ?_, hprefix,
    hrows, hread', ?_, ?_, ?_⟩
  · rw [houtcome]
    exact hrefuses
  · rw [houtcome']
    rfl
  · rw [houtcome', houtcome]
    rfl
  · exact lacksSummary_of_reads hfiles hfiles'

/-- A fault of a row, not of the files. -/
def Simulation.Fault.isReplay : Fault → Bool
  | replay _ => true
  | _ => false

/-- A row with a byte that belongs to no text is refused after a deposit and a
payment. -/
theorem Simulation.run_refused_of_stray_byte :
    let s : Simulation Wallet :=
      ⟨Wallet.payer, .rollForward, { rules := ⟨{}, ⟨2500⟩, 294, 10, 1, 0⟩ }⟩
    let f : Folder := ⟨[], [(["events.csv"], .file <|
      Text.bytes "0.001,0.00001\n-0.0004,0.00001\n-0.0001," ++ [0xFF, 0x0A])]⟩
    let run := s.run Folder.storage "events.csv" "results"
    ∃ fault, (run.run f).1.fault = some (.replay fault) ∧
      ∃ (bytes : List UInt8) (rows : List ScenarioRow)
        (bad : Except Table.Fault ScenarioRow)
        (rest : List (Except Table.Fault ScenarioRow)) (front : List UInt8),
        f.read "events.csv" = .ok (.bytes bytes) ∧
        scenarioRows bytes = rows.map .ok ++ bad :: rest ∧
        Replay.Refuses s.payer (run.run f).1.state bad fault ∧
        front <+: bytes ∧ scenarioRows front = rows.map .ok ∧
        let f' := f.withBytes "events.csv" front
        f'.read "events.csv" = .ok (.bytes front) ∧
        (run.run f').1.fault = none ∧
        (run.run f').1.state = (run.run f).1.state ∧
        LacksSummary (run.run f).2 (run.run f').2 "results" := by
  intro s f run
  have hreplay : ((run.run f).1.fault.any (·.isReplay)) = true := by
    decide +kernel
  obtain ⟨fault, hfault, hkind⟩ := (Option.any_eq_true _ _).mp hreplay
  cases fault with
  | replay fault =>
      exact ⟨fault, hfault, s.run_refused f "events.csv" "results" hfault⟩
  | _ => exact absurd hkind Bool.false_ne_true

end ExactSpend
