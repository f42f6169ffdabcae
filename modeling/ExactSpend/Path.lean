/-!
# Paths

A path is a text whose parts stand between slashes.  One that starts with a
slash begins at the root, every other one at the place where the program works.
A part `.` stays where it is and a part `..` leads upwards.
-/

namespace ExactSpend.Path

/-- The path of a name in a directory. -/
def join (directory name : String) : String :=
  if directory.isEmpty ∨ directory.endsWith "/" then directory ++ name
  else directory ++ "/" ++ name

/-- Whether a path begins at the root. -/
def isAbsolute (path : String) : Bool :=
  path.startsWith "/"

/-- What stands between the slashes of a text; the characters since the last one
stand in reverse. -/
def between : (since : List Char) → List Char → List String
  | since, [] => [String.ofList since.reverse]
  | since, c :: rest =>
    if c = '/' then String.ofList since.reverse :: between [] rest
    else between (c :: since) rest

/-- The steps of a path, one after the other: what stands between its
slashes. -/
def steps (path : String) : List String :=
  (between [] path.toList).filter (· ≠ "")

/-- The steps that lead into what a path names: a slash at the end asks for a
directory, as a step that stays there does. -/
def stepsInto (path : String) : List String :=
  steps path ++ if path.endsWith "/" then ["."] else []

/-- The steps that lead elsewhere. -/
def parts (path : String) : List String :=
  (steps path).filter (· ≠ ".")

/-- The last part of a path, unless that leads upwards. -/
def fileName (path : String) : String :=
  match (parts path).getLast? with
  | some ".." | none => ""
  | some name => name

/-- The path with some parts that begins where another path does. -/
def withParts (path : String) (parts : List String) : String :=
  (if isAbsolute path then "/" else "") ++ "/".intercalate parts

/-- The paths above a path, the nearest first: its parts without the last one,
without the last two, and so on, as long as any are left. -/
def ancestors (path : String) : List String :=
  let parts := parts path
  (List.range (parts.length - 1)).map fun n =>
    withParts path (parts.take (parts.length - 1 - n))

end ExactSpend.Path
