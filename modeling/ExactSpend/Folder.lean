import ExactSpend.Storage
import ExactSpend.Text

/-!
# Folders

A folder is a storage that is a value: the files with their bytes and the
directories, each by the names that lead to it from the root.  A path is
walked step by step, and every step has to start from a directory.
-/

namespace ExactSpend

/-- What a path can lead to. -/
inductive Node
  | file (bytes : List UInt8)
  | directory
deriving DecidableEq, Repr

/-- Files and directories, and the place where paths begin that do not begin
at the root.  The place and all that lies above it are directories. -/
structure Folder where
  place : List String := []
  nodes : List (List String × Node) := []
deriving DecidableEq, Repr

namespace Folder

/-- The number of bytes that a name may have. -/
def nameLimit : Nat := 255

/-- The number of bytes below which a path has to stay. -/
def pathLimit : Nat := 4096

/-- The node at a location. -/
def find? (f : Folder) (location : List String) : Option Node :=
  if location.isPrefixOf f.place then some .directory
  else f.nodes.lookup location

/-- Sets the node at a location. -/
def put (f : Folder) (location : List String) (node : Node) : Folder :=
  { f with nodes := (location, node) :: f.nodes.filter (·.1 ≠ location) }

/-- One step of a path.  Only the last step may lead to where nothing is. -/
def step (f : Folder) (location : List String) (name : String) :
    Except StorageFault (List String) :=
  match f.find? location with
  | none => .error .missing
  | some (.file _) => .error .notDirectory
  | some .directory =>
    if name = "." then .ok location
    else if name = ".." then .ok location.dropLast
    else if nameLimit < name.utf8ByteSize then .error .nameTooLong
    else .ok (location ++ [name])

/-- The location at which a path begins. -/
def start (f : Folder) (path : String) : List String :=
  if Path.isAbsolute path then [] else f.place

/-- The location to which the steps of a path lead. -/
def locate (f : Folder) (path : String) (steps : List String) :
    Except StorageFault (List String) :=
  if path.toList.contains '\x00' then .error .zeroInPath
  else if path.isEmpty then .error .missing
  else if pathLimit ≤ path.utf8ByteSize then .error .nameTooLong
  else steps.foldlM f.step (f.start path)

/-- Opens a path for reading. -/
def read (f : Folder) (path : String) : Except StorageFault Contents := do
  match f.find? (← f.locate path (Path.stepsInto path)) with
  | none => .error .missing
  | some .directory => .ok (.unreadable .isDirectory)
  | some (.file bytes) => .ok (.bytes bytes)

/-- Puts a node where a path leads, if nothing is there yet. -/
def putNew (f : Folder) (path : String) (node : Node) :
    Except StorageFault Folder := do
  let location ← f.locate path (Path.steps path)
  if (f.find? location).isSome then .error .occupied
  else .ok (f.put location node)

/-- Writes a text behind the end of a file. -/
def append (f : Folder) (path text : String) : Folder :=
  match f.locate path (Path.steps path) with
  | .error _ => f
  | .ok location =>
    match f.find? location with
    | some (.file before) => f.put location (.file (before ++ Text.bytes text))
    | _ => f

/-- Puts a file with a text, and the directories above it. -/
def withFile (f : Folder) (path text : String) : Folder :=
  let location := f.start path ++ Path.parts path
  let makeDirectory (f : Folder) (above : List String) : Folder :=
    if (f.find? above).isSome then f else f.put above .directory
  let above := (List.range location.length).map location.take
  (above.foldl makeDirectory f).put location (.file (Text.bytes text))

/-- The names and texts of what lies in a directory; what has no text is shown
without one. -/
def entries (f : Folder) (path : String) : List (String × String) :=
  match f.locate path (Path.steps path) with
  | .error _ => []
  | .ok directory => f.nodes.filterMap fun (location, node) =>
    match location.getLast? with
    | some name =>
      if location.dropLast = directory then
        some (name, match node with
          | .file bytes => (Text.ofBytes? bytes).getD ""
          | .directory => "")
      else none
    | none => none

/-- An operation that changes a folder unless it is refused. -/
def change (operation : Folder → Except StorageFault Folder) :
    StateM Folder (Except StorageFault Unit) := do
  match operation (← get) with
  | .ok f =>
    set f
    return .ok ()
  | .error fault => return .error fault

/-- A folder as a storage. -/
def storage : Storage (StateM Folder) where
  read path := return (← get).read path
  makeDirectory path := change (·.putNew path .directory)
  create path := change (·.putNew path (.file []))
  append path text := modify (·.append path text)

end Folder

end ExactSpend
