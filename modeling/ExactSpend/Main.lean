import ExactSpend.CommandLine.Program

/-!
# Command line

`main` runs the program on the real file system and environment, and writes
its notices to standard output and its faults to standard error.
-/

namespace ExactSpend.CommandLine

/-- The meaning of a refusal by the operating system. -/
def faultOf : IO.Error → StorageFault
  | .noFileOrDirectory .. => .missing
  | .permissionDenied .. => .denied
  | .alreadyExists .. => .occupied
  | .inappropriateType _ code _ =>
      if code = 20 then .notDirectory else .isDirectory
  | .invalidArgument _ 36 _ => .nameTooLong
  | other => .other (toString other)

/-- Runs an action and tells why it was refused. -/
def attempt (action : IO α) : IO (Except StorageFault α) := do
  try
    return .ok (← action)
  catch error => return .error (faultOf error)

/-- The file system as a storage. -/
def fileSystem : Storage IO where
  read path := do
    match ← attempt (IO.FS.Handle.mk path .read) with
    | .error fault => return .error fault
    | .ok _ =>
      match ← attempt (IO.FS.readBinFile path) with
      | .error fault => return .ok (.unreadable fault)
      | .ok bytes => return .ok (.bytes bytes.data.toList)
  makeDirectory path := attempt (IO.FS.createDir path)
  create path := attempt do
    let _ ← IO.FS.Handle.mk path .writeNew
  append path text := do
    let handle ← IO.FS.Handle.mk path .append
    handle.putStr text

/-- The text that help shows. -/
def usage : String :=
  "Usage: [OPTIONS] <SCENARIO> <OUTPUT>\n\nOptions:\n"
    ++ String.join
      (Flag.all.map fun flag => "  --" ++ flag.name ++ " <VALUE>\n")

/-- The text that the version option shows. -/
def versionText : String := "0.1.0"

/-- One line of the log. -/
def logLine (entry : Entry) : String :=
  let fields := entry.fields.map fun (name, value) => name ++ "=" ++ value
  " ".intercalate (entry.level.name :: entry.message :: fields)

end ExactSpend.CommandLine

open ExactSpend ExactSpend.CommandLine in
/-- Replays a scenario as the command line says. -/
def main (arguments : List String) : IO UInt32 := do
  let environment ← Flag.environment.filterMapM fun (_, name) => do
    return (← IO.getEnv name).map (name, ·)
  match Invocation.read arguments environment with
  | .error .help => IO.print usage
  | .error .version => IO.println versionText
  | .error fault => if fault.exitCode ≠ 0 then IO.eprint usage
  | .ok _ => pure ()
  let (notices, exit) ← run fileSystem arguments environment
  for notice in Notice.settled notices do
    if notice.entry.level = .info then IO.println (logLine notice.entry)
  IO.eprint exit.stderr
  return exit.code.toUInt32
