import Mathlib.Data.List.Forall2
import Mathlib.Data.List.Infix
import ExactSpend.Proofs.Folder
import ExactSpend.Replay.Results

/-!
# What a simulation leaves in a folder

A simulation creates its four files at places where nothing was, and so at four
different places, and writes each of them once.  At the end every file can be
read at its path and has the text that the replay gives it.
-/

namespace ExactSpend

open Folder

/-! ## Result files -/

theorem ResultFile.not_endsWith_slash (output : String) (file : ResultFile) :
    (Path.join output file.name).endsWith "/" = false := by
  have hlast : (Path.join output file.name).toList.getLast? = some 'v' := by
    rw [Path.join]
    split <;> rw [String.toList_append, List.getLast?_append] <;>
      cases file <;> rfl
  rw [← String.endsWith_toSlice, String.Slice.endsWith_string_eq_false_iff,
    String.copy_toSlice]
  rintro ⟨front, hfront⟩
  rw [← hfront, List.getLast?_append] at hlast
  simp at hlast

namespace Simulation

variable {σ : Type} {f f' : Folder} {output : String}

/-- Some result files lie at some locations and have some texts. -/
def LieAt (f : Folder) (output : String) (text : ResultFile → String) :
    List ResultFile → List (List String) → Prop :=
  List.Forall₂ fun file location =>
    f.HasFile (Path.join output file.name) location (Text.bytes (text file))

theorem LieAt.of_kept {text : ResultFile → String} {files : List ResultFile}
    {locations : List (List String)} (h : LieAt f output text files locations)
    (hdirectories : f.DirectoriesIn f')
    (hkept : ∀ location ∈ locations, f'.find? location = f.find? location) :
    LieAt f' output text files locations := by
  induction h with
  | nil => exact .nil
  | cons hfile _ ih =>
      refine .cons ⟨hdirectories.locate hfile.1, ?_⟩
        (ih fun other hother => hkept other (List.mem_cons_of_mem _ hother))
      rw [hkept _ List.mem_cons_self, hfile.2]

theorem LieAt.read {text : ResultFile → String} {files : List ResultFile}
    {locations : List (List String)} (h : LieAt f output text files locations)
    {file : ResultFile} (hmem : file ∈ files) :
    f.read (Path.join output file.name) =
      .ok (.bytes (Text.bytes (text file))) := by
  induction h with
  | nil => exact absurd hmem List.not_mem_nil
  | cons hfile _ ih =>
      rcases List.mem_cons.mp hmem with rfl | hmem
      · exact hfile.read (file.not_endsWith_slash output)
      · exact ih hmem

theorem run_createFiles_cons (file : ResultFile) (files : List ResultFile)
    (f : Folder) :
    (createFiles storage output (file :: files)).run f =
      match f.putNew (Path.join output file.name) (.file []) with
      | .ok f' => (createFiles storage output files).run f'
      | .error fault =>
          (some (.file (Path.join output file.name) fault), f) := by
  have hcreate :=
    run_change (·.putNew (Path.join output file.name) (.file [])) f
  rw [createFiles, StateT.run_bind]
  change (change (·.putNew (Path.join output file.name) (.file []))).run f >>=
    _ = _
  rw [hcreate]
  cases f.putNew (Path.join output file.name) (.file []) <;> rfl

/-- Files that could all be created lie, without text, at different places where
nothing was before; nothing else has changed. -/
theorem createFiles_spec (files : List ResultFile) : ∀ {f f' : Folder},
    (createFiles storage output files).run f = (none, f') →
      f.DirectoriesIn f' ∧ (∀ location node, f.find? location = some node →
        f'.find? location = some node) ∧
      ∃ locations, LieAt f' output (fun _ => "") files locations ∧
        locations.Nodup ∧
        ∀ location ∈ locations, f.find? location = none := by
  induction files with
  | nil =>
      intro f f' h
      obtain rfl : f = f' := (Prod.mk.inj h).2
      exact ⟨.refl f, fun _ _ h => h, [], .nil, List.nodup_nil, by simp⟩
  | cons file files ih =>
      intro f f' h
      rw [run_createFiles_cons] at h
      cases hput : f.putNew (Path.join output file.name) (.file []) with
      | error fault =>
          rw [hput] at h
          exact absurd (Prod.mk.inj h).1 (Option.some_ne_none _)
      | ok f₁ =>
          rw [hput] at h
          obtain ⟨location, hlocate, hfree, rfl⟩ := putNew_eq_ok hput
          have hnot : f.find? location ≠ some .directory := by simp [hfree]
          obtain ⟨hdirectories, hkept, locations, hlie, hnodup, hfresh⟩ := ih h
          have hbefore : f.DirectoriesIn (f.put location (.file [])) :=
            directoriesIn_put hnot
          have hfile : f'.HasFile (Path.join output file.name) location [] := by
            refine ⟨(hbefore.trans hdirectories).locate hlocate, hkept _ _ ?_⟩
            rw [find?_put hnot, if_pos rfl]
          -- This location is taken when the other files are created, so they
          -- lie elsewhere.
          refine ⟨hbefore.trans hdirectories, ?_, location :: locations,
            .cons hfile hlie, List.nodup_cons.mpr ⟨?_, hnodup⟩, ?_⟩
          · intro other node hother
            have hne : other ≠ location := fun heq => by
              simp [heq, hfree] at hother
            refine hkept other node ?_
            rw [find?_put hnot, if_neg hne, hother]
          · intro hmem
            have hnone := hfresh location hmem
            rw [find?_put hnot, if_pos rfl] at hnone
            simp at hnone
          · intro other hother
            rcases List.mem_cons.mp hother with rfl | hother
            · exact hfree
            · have hnone := hfresh other hother
              rw [find?_put hnot] at hnone
              split at hnone
              · simp at hnone
              · exact hnone

theorem createFiles_fault (files : List ResultFile) :
    ∀ {f f' : Folder} {fault : Fault},
    (createFiles storage output files).run f = (some fault, f') →
      ∀ cause, fault ≠ .replay cause := by
  induction files with
  | nil => exact fun h => absurd (Prod.mk.inj h).1 (Option.some_ne_none _).symm
  | cons file files ih =>
      intro f f' fault h
      rw [run_createFiles_cons] at h
      cases hput : f.putNew (Path.join output file.name) (.file []) with
      | ok f₁ =>
          rw [hput] at h
          exact ih h
      | error cause =>
          rw [hput] at h
          rw [← Option.some.inj (Prod.mk.inj h).1]
          simp

/-- A folder after some text has been written to each of some files. -/
def written (f : Folder) (output : String) (text : ResultFile → String)
    (files : List ResultFile) : Folder :=
  files.foldl (fun f file =>
    f.append (Path.join output file.name) (text file)) f

/-- Empty files at different places have the texts that are written to them. -/
theorem written_spec (text : ResultFile → String) (files : List ResultFile) :
    ∀ {f : Folder} {locations : List (List String)},
      LieAt f output (fun _ => "") files locations → locations.Nodup →
        f.DirectoriesIn (written f output text files) ∧
        (∀ location ∉ locations,
          (written f output text files).find? location = f.find? location) ∧
        LieAt (written f output text files) output text files locations := by
  induction files with
  | nil =>
      intro f locations h _
      obtain rfl := List.forall₂_nil_left_iff.mp h
      exact ⟨.refl f, fun _ _ => rfl, .nil⟩
  | cons file files ih =>
      intro f locations h hnodup
      obtain ⟨location, locations, hfile, hlie, rfl⟩ :=
        List.forall₂_cons_left_iff.mp h
      obtain ⟨hnotMem, hnodup⟩ := List.nodup_cons.mp hnodup
      have hnot := hfile.not_directory
      have hbefore :
          f.DirectoriesIn (f.put location (.file (Text.bytes (text file)))) :=
        directoriesIn_put hnot
      have hwritten : written f output text (file :: files) =
          written (f.put location (.file (Text.bytes (text file)))) output text
            files := by
        rw [written, List.foldl_cons, append_eq hfile]
        rfl
      -- The other files lie elsewhere, so they are still empty.
      have hrest :
          LieAt (f.put location (.file (Text.bytes (text file)))) output
          (fun _ => "") files locations := by
        refine LieAt.of_kept hlie hbefore fun other hother => ?_
        rw [find?_put hnot, if_neg fun heq : other =
          location => hnotMem (heq ▸ hother)]
      obtain ⟨hdirectories, hkept, hdone⟩ := ih hrest hnodup
      rw [hwritten]
      refine ⟨hbefore.trans hdirectories, ?_, .cons ⟨?_, ?_⟩ hdone⟩
      · intro other hother
        rw [List.mem_cons, not_or] at hother
        rw [hkept other hother.2, find?_put hnot, if_neg hother.1]
      · exact (hbefore.trans hdirectories).locate hfile.1
      · rw [hkept location hnotMem, find?_put hnot, if_pos rfl]

/-- The outcome and the folder that a simulation leaves. -/
theorem run_eq (s : Simulation σ) (f : Folder) (scenario output : String) :
    (s.run storage scenario output).run f =
      match f.read scenario with
      | .error fault => (⟨s.state, [], some (.scenario scenario fault)⟩, f)
      | .ok contents =>
        match (storage.ensureDirectories output).run f with
        | (.error fault, f₁) => (⟨s.state, [], some (.output output fault)⟩, f₁)
        | (.ok (), f₁) =>
          match (createFiles storage output ResultFile.all).run f₁ with
          | (some fault, f₂) => (⟨s.state, [], some fault⟩, f₂)
          | (none, f₂) =>
            match contents with
            | .unreadable fault => (⟨s.state, [], some (.unreadable fault)⟩, f₂)
            | .bytes bytes =>
              let replayed := s.replay scenario bytes
              (⟨replayed.1.payer, replayed.1.notices.toList,
                replayed.2.map .replay⟩,
                written f₂ output (fun file => file.text replayed.1)
                  ResultFile.all) := by
  have hread : (storage.read scenario).run f = pure (f.read scenario, f) := rfl
  unfold run
  dsimp only
  rw [StateT.run_bind, hread, pure_bind]
  cases hscenario : f.read scenario with
  | error fault => rfl
  | ok contents =>
      dsimp only
      rw [StateT.run_bind]
      generalize (storage.ensureDirectories output).run f = ensured
      obtain ⟨fault | -, f₁⟩ := ensured
      · rfl
      · change StateT.run (createFiles storage output ResultFile.all >>= _) f₁ =
          _
        rw [StateT.run_bind]
        dsimp only
        generalize (createFiles storage output ResultFile.all).run f₁ = created
        obtain ⟨- | fault, f₂⟩ := created
        · cases contents <;> rfl
        · rfl

/-- The output directory can be made, and all files can be created in it. -/
def Prepares (f : Folder) (output : String) : Prop :=
  ∃ f₁ f₂, (storage.ensureDirectories output).run f = (.ok (), f₁) ∧
    (createFiles storage output ResultFile.all).run f₁ = (none, f₂)

/-- Where the files can be created, a simulation replays the scenario and leaves
every file with the text that the replay gives it. -/
theorem run_of_prepares (s : Simulation σ) {scenario : String}
    {bytes : List UInt8} {r : Replay σ} {fault : Option Replay.Fault}
    (hread : f.read scenario = .ok (.bytes bytes))
    (hprepares : Prepares f output)
    (hreplay : s.replay scenario bytes = (r, fault)) :
    ((s.run storage scenario output).run f).1 =
        ⟨r.payer, r.notices.toList, fault.map .replay⟩ ∧
      ∀ file : ResultFile, ((s.run storage scenario output).run f).2.read
        (Path.join output file.name) =
          .ok (.bytes (Text.bytes (file.text r))) := by
  obtain ⟨f₁, f₂, hensured, hcreated⟩ := hprepares
  obtain ⟨-, -, locations, hlie, hnodup, -⟩ := createFiles_spec _ hcreated
  obtain ⟨-, -, hdone⟩ :=
    written_spec (fun file => file.text r) ResultFile.all hlie hnodup
  rw [run_eq, hread, hensured]
  dsimp only
  rw [hcreated]
  dsimp only
  rw [hreplay]
  refine ⟨rfl, fun file => hdone.read ?_⟩
  cases file <;> decide

/-- A simulation ends before its replay begins, for a fault of another kind, or
the scenario can be read and the files can be created. -/
theorem run_cases (s : Simulation σ) (f : Folder) (scenario output : String) :
    (∃ fault, (∀ cause, fault ≠ .replay cause) ∧
        ((s.run storage scenario output).run f).1 = ⟨s.state, [], some fault⟩) ∨
      ∃ bytes, f.read scenario = .ok (.bytes bytes) ∧ Prepares f output := by
  rw [run_eq]
  cases f.read scenario with
  | error fault => exact Or.inl ⟨.scenario scenario fault, by simp, rfl⟩
  | ok contents =>
      generalize hensured : (storage.ensureDirectories output).run f = ensured
      obtain ⟨fault | _, f₁⟩ := ensured
      · exact Or.inl ⟨.output output fault, by simp, rfl⟩
      · dsimp only
        generalize hcreated :
          (createFiles storage output ResultFile.all).run f₁ = created
        obtain ⟨- | fault, f₂⟩ := created
        · cases contents with
          | unreadable fault => exact Or.inl ⟨.unreadable fault, by simp, rfl⟩
          | bytes bytes => exact Or.inr ⟨bytes, rfl, f₁, f₂, hensured, hcreated⟩
        · exact Or.inl ⟨fault, createFiles_fault _ hcreated, rfl⟩

theorem answersAlike_createFiles (files : List ResultFile) :
    AnswersAlike (createFiles storage output files) := by
  induction files with
  | nil => exact answersAlike_pure _
  | cons file files ih =>
      unfold createFiles
      refine (answersAlike_putNew _ _).bind fun created => ?_
      cases created with
      | ok => exact ih
      | error fault => exact answersAlike_pure _

/-- Files can be created in a folder if they can be in one that differs in bytes
only. -/
theorem Prepares.of_sameShape (h : Prepares f output)
    (hshape : f.SameShape f') :
    Prepares f' output := by
  obtain ⟨f₁, f₂, hensured, hcreated⟩ := h
  obtain ⟨hanswer, hafter⟩ := answersAlike_ensureDirectories output f f' hshape
  rw [hensured] at hanswer hafter
  generalize hensured' : (storage.ensureDirectories output).run f' = ensured
    at hanswer hafter
  obtain ⟨_, f₁'⟩ := ensured
  obtain rfl : _ = _ := hanswer
  obtain ⟨hanswer', -⟩ := answersAlike_createFiles ResultFile.all f₁ f₁' hafter
  rw [hcreated] at hanswer'
  exact ⟨f₁', ((createFiles storage output ResultFile.all).run f₁').2,
    hensured', Prod.ext hanswer' rfl⟩

end Simulation
end ExactSpend
