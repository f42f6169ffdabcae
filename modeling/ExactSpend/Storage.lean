import ExactSpend.Path

/-!
# Storage

A replay reads its scenario and writes its results through a storage: four
operations in some monad, each of which can be refused.  Everything else that
is done to files and directories is composed of them.
-/

namespace ExactSpend

/-- Why a storage refuses an operation. -/
inductive StorageFault
  | missing
  | denied
  | occupied
  | notDirectory
  | isDirectory
  | nameTooLong
  /-- A character with the number zero cannot be part of a path. -/
  | zeroInPath
  | other (report : String)
deriving DecidableEq, Repr

namespace StorageFault

/-- The meaning of a fault followed by its number. -/
def numbered (meaning : String) (number : Nat) : String :=
  meaning ++ " (os error " ++ toString number ++ ")"

/-- The report of a fault. -/
def message : StorageFault → String
  | missing => numbered "No such file or directory" 2
  | denied => numbered "Permission denied" 13
  | occupied => numbered "File exists" 17
  | notDirectory => numbered "Not a directory" 20
  | isDirectory => numbered "Is a directory" 21
  | nameTooLong => numbered "File name too long" 36
  | zeroInPath => "file name contained an unexpected NUL byte"
  | other report => report

end StorageFault

/-- What opening a path for reading gives: its bytes, or something that can be
opened but not read. -/
inductive Contents
  | bytes (bytes : List UInt8)
  | unreadable (fault : StorageFault)
deriving DecidableEq, Repr

/-- The operations of a storage. -/
structure Storage (m : Type → Type) where
  /-- Opens a path and reads it. -/
  read : (path : String) → m (Except StorageFault Contents)
  /-- Makes a directory where there is nothing yet. -/
  makeDirectory : (path : String) → m (Except StorageFault Unit)
  /-- Creates an empty file where there is nothing yet. -/
  create : (path : String) → m (Except StorageFault Unit)
  /-- Writes a text behind the end of a file that was created. -/
  append : (path text : String) → m Unit

namespace Storage

variable {m : Type → Type} [Monad m]

/-- Whether a path leads to a directory: it can be opened, but not read. -/
def isDirectory (store : Storage m) (path : String) : m Bool := do
  match ← store.read path with
  | .ok (.unreadable fault) => return fault = .isDirectory
  | _ => return false

/-- Makes a directory; one that is there already will do. -/
def ensureDirectory (store : Storage m) (path : String) :
    m (Except StorageFault Unit) := do
  match ← store.makeDirectory path with
  | .ok () => return .ok ()
  | .error fault =>
    if ← store.isDirectory path then return .ok () else return .error fault

/-- Makes a directory.  Where the way to it is missing, the nearest of the
directories above it is made first, in the same manner. -/
def ensureBelow (store : Storage m) :
    (above : List String) → (path : String) → m (Except StorageFault Unit)
  | [], path => store.ensureDirectory path
  | parent :: above, path => do
    match ← store.ensureDirectory path with
    | .error .missing =>
      match ← ensureBelow store above parent with
      | .ok () => store.ensureDirectory path
      | .error fault => return .error fault
    | result => return result

/-- Makes a directory and all directories above it that are missing. -/
def ensureDirectories (store : Storage m) (path : String) :
    m (Except StorageFault Unit) :=
  store.ensureBelow (Path.ancestors path) path

end Storage

end ExactSpend
