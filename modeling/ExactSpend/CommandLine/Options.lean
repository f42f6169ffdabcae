import ExactSpend.Bounded
import ExactSpend.Decimal.Reader
import ExactSpend.Replay

/-!
# Options

A command line names a scenario and an output directory and may set options.
An option is written with its value behind it or attached by an equals sign;
a double dash ends the options.  Some options can also come from the
environment, which counts only for options that the command line leaves out.

A value is checked when the next argument is taken up, so an argument that
nobody knows is told before a faulty value just ahead of it.
-/

namespace ExactSpend.CommandLine

/-- Why a command line is not carried out; the last two ask for a text. -/
inductive UsageFault
  | missingArgument
  | unknownArgument
  /-- A value is missing, empty or not among the allowed ones. -/
  | invalidValue
  /-- A value is no count. -/
  | invalidCount
  /-- An option is given twice. -/
  | repeated
  /-- A value is attached to an option that takes none. -/
  | needlessValue
  | help
  | version
deriving DecidableEq, Repr

/-- Asking for a text is no failure. -/
def UsageFault.exitCode : UsageFault → UInt8
  | help | version => 0
  | _ => 2

/-- The options that take a value. -/
inductive Flag
  | paymentPolicy
  | selectorConfig
  | maxInputs
  | timeout
  | moreTolerance
  | lessTolerance
  | maxIterations
  | groupUsefulnessPercent
  | addressReuse
  | longTermRate
  | dustLimit
deriving DecidableEq, Repr

namespace Flag

/-- The name of an option behind its two dashes. -/
def name : Flag → String
  | paymentPolicy => "payment-policy"
  | selectorConfig => "selector-config"
  | maxInputs => "max-inputs"
  | timeout => "timeout-ms"
  | moreTolerance => "more-tolerance"
  | lessTolerance => "less-tolerance"
  | maxIterations => "max-iterations"
  | groupUsefulnessPercent => "group-usefulness-percent"
  | addressReuse => "address-reuse"
  | longTermRate => "long-term-feerate"
  | dustLimit => "dust-limit"

/-- All options. -/
def all : List Flag :=
  [paymentPolicy, selectorConfig, maxInputs, timeout, moreTolerance,
    lessTolerance, maxIterations, groupUsefulnessPercent, addressReuse,
    longTermRate, dustLimit]

/-- The option of a name. -/
def ofName? (text : String) : Option Flag :=
  all.find? (·.name = text)

/-- The options that the environment can give, in the order in which it is
asked, with the names of its variables. -/
def environment : List (Flag × String) :=
  [(selectorConfig, "CHANGELESS_SELECTOR_CONFIG"),
    (timeout, "CHANGELESS_TIMEOUT_MS"),
    (maxIterations, "CHANGELESS_MAX_ITERATIONS")]

end Flag

/-- The values of all options. -/
structure Options where
  policy : Policy := .drop
  selectorConfig : Option String := none
  maxInputs : Nat := 10
  timeout : Nat := 500
  moreTolerance : Option Nat := none
  lessTolerance : Option Nat := none
  maxIterations : Option Nat := none
  groupUsefulnessPercent : Option Nat := none
  addressReuse : Nat := 0
  /-- Satoshis per virtual byte. -/
  longTermRate : Nat := 10
  dustLimit : Nat := 526
deriving DecidableEq, Repr

/-- A policy by its name. -/
def policy? : String → Option Policy
  | "drop" => some .drop
  | "roll-forward" => some .rollForward
  | _ => none

/-- A path must not be empty. -/
def readPath (value : String) : Except UsageFault String :=
  if value.isEmpty then .error .invalidValue else .ok value

/-- A count is read in decimal digits. -/
def readCount (value : String) : Except UsageFault Nat :=
  (Decimal.readCount 10 unsignedMax value.toList).mapError
    fun _ => .invalidCount

namespace Options

/-- Sets an option from the text of its value. -/
def set (o : Options) (flag : Flag) (value : String) :
    Except UsageFault Options :=
  match flag with
  | .paymentPolicy =>
    match policy? value with
    | some policy => .ok { o with policy }
    | none => .error .invalidValue
  | .selectorConfig =>
    do return { o with selectorConfig := some (← readPath value) }
  | .maxInputs => do return { o with maxInputs := ← readCount value }
  | .timeout => do return { o with timeout := ← readCount value }
  | .moreTolerance =>
    do return { o with moreTolerance := some (← readCount value) }
  | .lessTolerance =>
    do return { o with lessTolerance := some (← readCount value) }
  | .maxIterations =>
    do return { o with maxIterations := some (← readCount value) }
  | .groupUsefulnessPercent =>
    do return { o with groupUsefulnessPercent := some (← readCount value) }
  | .addressReuse => do return { o with addressReuse := ← readCount value }
  | .longTermRate => do return { o with longTermRate := ← readCount value }
  | .dustLimit => do return { o with dustLimit := ← readCount value }

/-- Settings with the options that are given in place of them. -/
def override (o : Options) (s : Settings) : Settings :=
  { s with
    moreTolerance := o.moreTolerance <|> s.moreTolerance
    lessTolerance := o.lessTolerance.getD s.lessTolerance
    maxIterations := o.maxIterations.getD s.maxIterations
    groupUsefulnessPercent :=
      o.groupUsefulnessPercent.getD s.groupUsefulnessPercent }

end Options

/-- A command line that can be carried out. -/
structure Invocation where
  scenario : String
  output : String
  options : Options
deriving DecidableEq, Repr

/-- What a value is for. -/
inductive Slot
  | scenario
  | output
  | flag (flag : Flag)
deriving DecidableEq, Repr

/-- A command line that is being read. -/
structure Draft where
  scenario : Option String := none
  output : Option String := none
  options : Options := {}
  /-- The options given so far. -/
  given : List Flag := []
  /-- The slot taken up last, with its value if that was given, to be checked
  when the next argument is taken up. -/
  pending : Option (Slot × Option String) := none
  /-- The arguments so far that are neither options nor their values. -/
  positions : Nat := 0
  /-- Whether a double dash has been read. -/
  optionsEnded : Bool := false

namespace Draft

/-- Checks a value and puts it where it belongs. -/
def accept (d : Draft) (slot : Slot) (value : String) :
    Except UsageFault Draft :=
  match slot with
  | .scenario => do return { d with scenario := some (← readPath value) }
  | .output => do return { d with output := some (← readPath value) }
  | .flag flag =>
    if flag ∈ d.given then .error .repeated
    else do
      return { d with
        options := ← d.options.set flag value
        given := flag :: d.given }

/-- Checks the pending value. -/
def resolve (d : Draft) : Except UsageFault Draft :=
  match d.pending with
  | none => .ok d
  | some (_, none) => .error .invalidValue
  | some (slot, some value) => { d with pending := none }.accept slot value

/-- Asks for a text, once the pending value is in order. -/
def ask (d : Draft) (text : UsageFault) : Except UsageFault Draft := do
  let _ ← d.resolve
  .error text

/-- Takes up an argument that is no option. -/
def position (d : Draft) (value : String) : Except UsageFault Draft := do
  let slot ← match d.positions with
    | 0 => pure Slot.scenario
    | 1 => pure Slot.output
    | _ => throw .unknownArgument
  let d ← d.resolve
  return { d with
    pending := some (slot, some value)
    positions := d.positions + 1 }

/-- Takes up an option by its name and the value attached to it. -/
def option (d : Draft) (name : String) (attached : Option String) :
    Except UsageFault Draft :=
  match Flag.ofName? name, attached with
  | some flag, some value => do (← d.resolve).accept (.flag flag) value
  | some flag, none =>
    do return { ← d.resolve with pending := some (.flag flag, none) }
  | none, attached =>
    if name = "help" ∨ name = "version" then
      if attached.isSome then .error .needlessValue
      else d.ask (if name = "help" then .help else .version)
    else .error .unknownArgument

/-- Takes up an option of one letter. -/
def letter (d : Draft) : Char → Except UsageFault Draft
  | 'h' => d.ask .help
  | 'V' => d.ask .version
  | _ => .error .unknownArgument

/-- Takes up an argument. -/
def step (d : Draft) (argument : String) : Except UsageFault Draft :=
  if d.optionsEnded then d.position argument
  else match argument.toList with
    | ['-', '-'] => .ok { d with optionsEnded := true }
    | '-' :: '-' :: body =>
      let name := String.ofList (body.takeWhile (· ≠ '='))
      match body.dropWhile (· ≠ '=') with
      | [] => d.option name none
      | _ :: value => d.option name (some (String.ofList value))
    | '-' :: c :: _ => d.letter c
    | _ =>
      match d.pending with
      | some (.flag flag, none) =>
          .ok { d with pending := some (.flag flag, some argument) }
      | _ => d.position argument

/-- Takes options from the environment that were not given. -/
def fromEnvironment (environment : List (String × String)) (d : Draft) :
    List (Flag × String) → Except UsageFault Draft
  | [] => .ok d
  | (flag, name) :: rest =>
    match environment.lookup name with
    | none => fromEnvironment environment d rest
    | some value =>
      if flag ∈ d.given then fromEnvironment environment d rest
      else do fromEnvironment environment (← d.accept (.flag flag) value) rest

end Draft

/-- Reads a command line in an environment of named values. -/
def Invocation.read (arguments : List String)
    (environment : List (String × String)) :
    Except UsageFault Invocation := do
  let d ← arguments.foldlM Draft.step {}
  let d ← d.resolve
  let d ← Draft.fromEnvironment environment d Flag.environment
  match d.scenario, d.output with
  | some scenario, some output => return ⟨scenario, output, d.options⟩
  | _, _ => throw .missingArgument

end ExactSpend.CommandLine
