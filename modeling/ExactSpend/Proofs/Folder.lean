import ExactSpend.Folder

/-!
# Folders

A file is created where nothing is, so all nodes that were there stay, and all
paths lead where they led.  Two folders that differ in the bytes of their files
only answer alike when directories and files are made, and differ in bytes only
afterwards.
-/

namespace ExactSpend

namespace Folder

variable {f f' : Folder} {path : String} {bytes : List UInt8}
variable {location other : List String} {node : Node}

/-! ## Nodes -/

theorem lookup_filter_ne {nodes : List (List String × Node)}
    (h : other ≠ location) :
    (nodes.filter (·.1 ≠ location)).lookup other = nodes.lookup other := by
  induction nodes with
  | nil => rfl
  | cons entry nodes ih =>
      by_cases heq : entry.1 = location
      · have hne : (other == entry.1) = false := beq_false_of_ne (heq ▸ h)
        rw [List.filter_cons_of_neg (by simpa using heq), ih,
          List.lookup_cons, hne]
      · rw [List.filter_cons_of_pos (by simpa using heq), List.lookup_cons,
          List.lookup_cons, ih]

theorem not_prefix_of_find? (h : f.find? location ≠ some .directory) :
    ¬location.isPrefixOf f.place = true := by
  intro hprefix
  rw [find?, if_pos hprefix] at h
  exact h rfl

/-- A node is put where no directory is, and all others stay as they are. -/
theorem find?_put (h : f.find? location ≠ some .directory) :
    (f.put location node).find? other =
      if other = location then some node else f.find? other := by
  have hnot := not_prefix_of_find? h
  by_cases heq : other = location
  · rw [if_pos heq, heq, find?, put, if_neg hnot]
    exact List.lookup_cons_self
  · have hne : (other == location) = false := beq_false_of_ne heq
    rw [if_neg heq, find?, find?, put]
    simp only [List.lookup_cons, hne, lookup_filter_ne heq]

/-! ## Places -/

/-- Every directory of a folder is one of another folder as well. -/
def DirectoriesIn (f f' : Folder) : Prop :=
  f'.place = f.place ∧ ∀ location, f.find? location = some .directory →
    f'.find? location = some .directory

theorem DirectoriesIn.refl (f : Folder) : f.DirectoriesIn f :=
  ⟨rfl, fun _ h => h⟩

theorem DirectoriesIn.trans {f'' : Folder} (h : f.DirectoriesIn f')
    (h' : f'.DirectoriesIn f'') :
    f.DirectoriesIn f'' :=
  ⟨h'.1.trans h.1, fun location hlocation =>
    h'.2 location (h.2 location hlocation)⟩

theorem directoriesIn_put (h : f.find? location ≠ some .directory) :
    f.DirectoriesIn (f.put location node) := by
  refine ⟨rfl, fun other hother => ?_⟩
  have hne : other ≠ location := fun heq => h (heq ▸ hother)
  rw [find?_put h, if_neg hne, hother]

theorem DirectoriesIn.step (h : f.DirectoriesIn f') {name : String}
    (hstep : f.step location name = .ok other) :
    f'.step location name = .ok other := by
  unfold Folder.step at hstep ⊢
  cases hfind : f.find? location with
  | none => simp [hfind] at hstep
  | some node =>
      cases node with
      | file bytes => simp [hfind] at hstep
      | directory =>
          rw [hfind] at hstep
          rw [h.2 location hfind]
          exact hstep

theorem DirectoriesIn.foldlM (h : f.DirectoriesIn f') (steps : List String) :
    ∀ {location}, steps.foldlM f.step location = .ok other →
      steps.foldlM f'.step location = .ok other := by
  induction steps with
  | nil => exact fun hsteps => hsteps
  | cons name steps ih =>
      intro location hsteps
      rw [List.foldlM_cons] at hsteps ⊢
      cases hstep : f.step location name with
      | error fault => simp [hstep, bind, Except.bind] at hsteps
      | ok next =>
          rw [hstep] at hsteps
          rw [h.step hstep]
          exact ih hsteps

/-- A path leads where it led while directories stay directories. -/
theorem DirectoriesIn.locate (h : f.DirectoriesIn f') {steps : List String}
    (hlocate : f.locate path steps = .ok location) :
    f'.locate path steps = .ok location := by
  have hstart : f'.start path = f.start path := by
    rw [start, start, h.1]
  unfold Folder.locate at hlocate ⊢
  split at hlocate
  · simp at hlocate
  split at hlocate
  · simp at hlocate
  split at hlocate
  · simp at hlocate
  rw [if_neg ‹_›, if_neg ‹_›, if_neg ‹_›, hstart]
  exact h.foldlM steps hlocate

/-! ## Files -/

/-- A path leads to a location, where there is a file with some bytes. -/
def HasFile (f : Folder) (path : String) (location : List String)
    (bytes : List UInt8) : Prop :=
  f.locate path (Path.steps path) = .ok location ∧
    f.find? location = some (.file bytes)

theorem HasFile.read (h : f.HasFile path location bytes)
    (hslash : path.endsWith "/" = false) :
    f.read path = .ok (.bytes bytes) := by
  have hlocate : f.locate path (Path.stepsInto path) = .ok location := by
    rw [Path.stepsInto, hslash, if_neg Bool.false_ne_true, List.append_nil, h.1]
  unfold Folder.read
  rw [hlocate]
  simp [bind, Except.bind, h.2]

theorem HasFile.not_directory (h : f.HasFile path location bytes) :
    f.find? location ≠ some .directory := by
  rw [h.2]
  simp

theorem putNew_eq_ok (h : f.putNew path node = .ok f') :
    ∃ location, f.locate path (Path.steps path) = .ok location ∧
      f.find? location = none ∧ f' = f.put location node := by
  unfold putNew at h
  cases hlocate : f.locate path (Path.steps path) with
  | error fault => simp [hlocate, bind, Except.bind] at h
  | ok location =>
      simp only [hlocate, bind, Except.bind] at h
      cases hfind : f.find? location with
      | some node => simp [hfind] at h
      | none =>
          simp only [hfind, Option.isSome_none, Bool.false_eq_true, if_false]
            at h
          exact ⟨location, rfl, hfind, (Except.ok.inj h).symm⟩

theorem append_eq (h : f.HasFile path location bytes) (text : String) :
    f.append path text =
      f.put location (.file (bytes ++ Text.bytes text)) := by
  unfold append
  rw [h.1]
  simp [h.2]

/-! ## Operations -/

theorem run_change (operation : Folder → Except StorageFault Folder)
    (f : Folder) :
    (change operation).run f =
      match operation f with
      | .ok f' => (.ok (), f')
      | .error fault => (.error fault, f) := by
  simp only [change, StateT.run_bind, StateT.run_get, pure_bind]
  cases operation f <;> rfl

/-! ## Folders that differ in bytes -/

/-- What is at a location of one folder differs from what is there in another
one in the bytes of a file only. -/
inductive DiffersInBytes : Option Node → Option Node → Prop
  | nothing : DiffersInBytes none none
  | directory : DiffersInBytes (some .directory) (some .directory)
  | file (bytes bytes' : List UInt8) :
      DiffersInBytes (some (.file bytes)) (some (.file bytes'))

theorem DiffersInBytes.refl (node : Option Node) :
    DiffersInBytes node node := by
  rcases node with - | bytes | -
  · exact .nothing
  · exact .file bytes bytes
  · exact .directory

/-- Two folders have the same directories, and files at the same locations. -/
def SameShape (f f' : Folder) : Prop :=
  f'.place = f.place ∧
    ∀ location, DiffersInBytes (f.find? location) (f'.find? location)

theorem SameShape.step (h : f.SameShape f') : f'.step = f.step := by
  funext location name
  have hnode := h.2 location
  unfold Folder.step
  generalize f.find? location = node, f'.find? location = node' at hnode ⊢
  cases hnode <;> rfl

theorem SameShape.locate (h : f.SameShape f') (path : String)
    (steps : List String) :
    f'.locate path steps = f.locate path steps := by
  rw [Folder.locate, Folder.locate, start, start, h.1, h.step]

theorem SameShape.put (h : f.SameShape f') (hfree : f.find? location = none)
    (node : Node) :
    (f.put location node).SameShape (f'.put location node) := by
  have hfree' : f'.find? location = none := by
    have hnode := h.2 location
    rw [hfree] at hnode
    generalize f'.find? location = node' at hnode ⊢
    cases hnode
    rfl
  refine ⟨h.1, fun other => ?_⟩
  rw [find?_put (by simp [hfree]), find?_put (by simp [hfree'])]
  split
  · exact .refl _
  · exact h.2 other

/-- The folder with other bytes in the file that is opened at a path. -/
def withBytes (f : Folder) (path : String) (bytes : List UInt8) : Folder :=
  match f.locate path (Path.stepsInto path) with
  | .ok location => f.put location (.file bytes)
  | .error _ => f

theorem exists_of_read_eq (h : f.read path = .ok (.bytes bytes)) :
    ∃ location, f.locate path (Path.stepsInto path) = .ok location ∧
      f.find? location = some (.file bytes) := by
  unfold Folder.read at h
  cases hlocate : f.locate path (Path.stepsInto path) with
  | error fault => simp [hlocate, bind, Except.bind] at h
  | ok location =>
      simp only [hlocate, bind, Except.bind] at h
      rcases hnode : f.find? location with - | old | -
      · simp [hnode] at h
      · simp only [hnode, Except.ok.injEq, Contents.bytes.injEq] at h
        exact ⟨location, rfl, h ▸ hnode⟩
      · simp [hnode] at h

theorem sameShape_withBytes (h : f.read path = .ok (.bytes bytes))
    (other : List UInt8) : f.SameShape (f.withBytes path other) := by
  obtain ⟨location, hlocate, hnode⟩ := exists_of_read_eq h
  rw [withBytes, hlocate]
  refine ⟨rfl, fun there => ?_⟩
  rw [find?_put (by simp [hnode])]
  split
  · rename_i heq
    rw [heq, hnode]
    exact .file bytes other
  · exact .refl _

theorem read_withBytes (h : f.read path = .ok (.bytes bytes))
    (other : List UInt8) :
    (f.withBytes path other).read path = .ok (.bytes other) := by
  obtain ⟨location, hlocate, hnode⟩ := exists_of_read_eq h
  have hthere : (f.withBytes path other).find? location =
      some (.file other) := by
    rw [withBytes, hlocate]
    exact (find?_put (by simp [hnode])).trans (if_pos rfl)
  rw [Folder.read, (sameShape_withBytes h other).locate, hlocate]
  simp [bind, Except.bind, hthere]

/-- An operation gives the same answers on folders of the same shape, and leaves
them of the same shape. -/
def AnswersAlike {α : Type} (operation : StateM Folder α) : Prop :=
  ∀ f f', f.SameShape f' → (operation.run f').1 = (operation.run f).1 ∧
    (operation.run f).2.SameShape (operation.run f').2

theorem answersAlike_pure {α : Type} (a : α) : AnswersAlike (pure a) :=
  fun _ _ h => ⟨rfl, h⟩

theorem AnswersAlike.bind {α β : Type} {operation : StateM Folder α}
    {next : α → StateM Folder β}
    (h : AnswersAlike operation) (hnext : ∀ a, AnswersAlike (next a)) :
    AnswersAlike (operation >>= next) := by
  intro f f' hshape
  obtain ⟨hanswer, hafter⟩ := h f f' hshape
  rw [StateT.run_bind, StateT.run_bind]
  obtain ⟨hlast, hend⟩ := hnext (operation.run f).1 _ _ hafter
  refine ⟨?_, ?_⟩
  · change ((next (operation.run f').1).run (operation.run f').2).1 = _
    rw [hanswer]
    exact hlast
  · change SameShape _ ((next (operation.run f').1).run (operation.run f').2).2
    rw [hanswer]
    exact hend

/-- A node can be put in one folder where it can be put in the other. -/
theorem answersAlike_putNew (path : String) (node : Node) :
    AnswersAlike (change (·.putNew path node)) := by
  intro f f' h
  rw [run_change, run_change, putNew, putNew, h.locate]
  cases f.locate path (Path.steps path) with
  | error fault => exact ⟨rfl, h⟩
  | ok location =>
      have hnode := h.2 location
      simp only [bind, Except.bind]
      generalize hfind : f.find? location = node₁,
        f'.find? location = node₂ at hnode
      cases hnode with
      | nothing => exact ⟨rfl, h.put hfind node⟩
      | directory => exact ⟨rfl, h⟩
      | file bytes bytes' => exact ⟨rfl, h⟩

theorem run_isDirectory (path : String) (f : Folder) :
    (storage.isDirectory path).run f =
      (match f.read path with
        | .ok (.unreadable fault) => decide (fault = .isDirectory)
        | _ => false, f) := by
  have hread : (storage.read path).run f = pure (f.read path, f) := rfl
  rw [Storage.isDirectory, StateT.run_bind, hread, pure_bind]
  dsimp only
  rcases f.read path with fault | bytes | fault <;> rfl

theorem answersAlike_isDirectory (path : String) :
    AnswersAlike (storage.isDirectory path) := by
  intro f f' h
  rw [run_isDirectory, run_isDirectory, Folder.read, Folder.read, h.locate]
  refine ⟨?_, h⟩
  cases f.locate path (Path.stepsInto path) with
  | error fault => rfl
  | ok location =>
      have hnode := h.2 location
      simp only [bind, Except.bind]
      generalize f.find? location = node₁, f'.find? location = node₂ at hnode
      cases hnode <;> rfl

theorem answersAlike_ensureDirectory (path : String) :
    AnswersAlike (storage.ensureDirectory path) := by
  unfold Storage.ensureDirectory
  refine (answersAlike_putNew path .directory).bind fun made => ?_
  cases made with
  | ok => exact answersAlike_pure _
  | error fault =>
      refine (answersAlike_isDirectory path).bind fun there => ?_
      cases there <;> exact answersAlike_pure _

theorem answersAlike_ensureBelow (above : List String) :
    ∀ path, AnswersAlike (storage.ensureBelow above path) := by
  induction above with
  | nil => exact answersAlike_ensureDirectory
  | cons parent above ih =>
      intro path
      unfold Storage.ensureBelow
      refine (answersAlike_ensureDirectory path).bind fun made => ?_
      split
      · refine (ih parent).bind fun made => ?_
        cases made with
        | ok => exact answersAlike_ensureDirectory path
        | error fault => exact answersAlike_pure _
      · exact answersAlike_pure _

/-- The directories of a path can be made in one folder if they can be made in
the other. -/
theorem answersAlike_ensureDirectories (path : String) :
    AnswersAlike (storage.ensureDirectories path) :=
  answersAlike_ensureBelow _ path

end Folder
end ExactSpend
