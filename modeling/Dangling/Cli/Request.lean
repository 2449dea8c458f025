import Dangling.Cli.Switch

/-!
# Cli — Request

What the user asks for, read off the command line: a scan of dumps, the graph of a function, the
version, or help.
-/

namespace Dangling

/-- How a scan reports. -/
inductive Format where
  | text | json | sarif
  deriving DecidableEq, Repr, Inhabited

/-- The format of a word. -/
def Format.ofWord : String → Format
  | "json" => .json
  | "sarif" => .sarif
  | _ => .text

/-- Which findings make a scan fail. -/
inductive FailOn where
  | critical | high | any | never
  deriving DecidableEq, Repr, Inhabited

/-- The condition of a word. -/
def FailOn.ofWord : String → FailOn
  | "critical" => .critical
  | "high" => .high
  | "none" => .never
  | _ => .any

/-- A scan of a dump or of the dumps in a directory. -/
structure ScanRequest where
  target : String
  pattern : String := "**/*.json"
  format : Format := .text
  output : Option String := none
  visitBudget : Int := 10000
  loopUnroll : Int := 2
  followUnwind : Bool := false
  jobs : Int := 1
  function : Option String := none
  failOn : FailOn := .any
  verbose : Bool := false
  deriving DecidableEq, Repr, Inhabited

/-- A look at the graph of a function. -/
structure GraphRequest where
  target : String
  function : String
  format : Format := .text
  deriving DecidableEq, Repr, Inhabited

/-- What the user asks for. -/
inductive Request where
  | help
  | version
  | scan (r : ScanRequest)
  | graph (r : GraphRequest)
  deriving DecidableEq, Repr, Inhabited

/-- A command line that cannot be read, by the command that refuses it. -/
structure UsageError where
  command : String
  fault : UsageFault
  deriving DecidableEq, Repr, Inhabited

/-- The wording of a refusal. -/
def UsageError.message (e : UsageError) : String := e.command ++ ": error: " ++ e.fault.message

namespace Request

/-- What the switches stand for. -/
inductive Key where
  | help | version | pattern | format | output | visitBudget | loopUnroll | followUnwind | jobs
  | function | failOn | verbose
  deriving DecidableEq, Repr, Inhabited

/-- The switch for help. -/
def helpSwitch : Switch Key := { key := .help, names := ["-h", "--help"], rule := .final }

/-- The switches before a command. -/
def outerSwitches : List (Switch Key) :=
  [helpSwitch, { key := .version, names := ["-V", "--version"], rule := .final }]

/-- The switches of a scan. -/
def scanSwitches : List (Switch Key) :=
  [helpSwitch,
    { key := .pattern, names := ["-p", "--pattern"] },
    { key := .format, names := ["-f", "--format"], rule := .oneOf ["text", "json", "sarif"] },
    { key := .output, names := ["-o", "--output"] },
    { key := .visitBudget, names := ["--visit-budget"], rule := .whole },
    { key := .loopUnroll, names := ["--loop-unroll"], rule := .whole },
    { key := .followUnwind, names := ["--follow-unwind"], rule := .flag },
    { key := .jobs, names := ["-j", "--jobs"], rule := .whole },
    { key := .function, names := ["--function"] },
    { key := .failOn, names := ["--fail-on"], rule := .oneOf ["critical", "high", "any", "none"] },
    { key := .verbose, names := ["-v", "--verbose"], rule := .flag }]

/-- The switches of a look at a graph. -/
def graphSwitches : List (Switch Key) :=
  [helpSwitch,
    { key := .function, names := ["--function"], required := true },
    { key := .format, names := ["-f", "--format"], rule := .oneOf ["text", "json"] }]

/-- The name of this program. -/
def programName : String := "safedrop"

/-- The commands. -/
def commands : List String := ["scan", "cfg"]

/-- A whole number given to a switch. -/
def wholeOr (r : Switch.Reading Key) (key : Key) (default : Int) : Int :=
  ((r.value? key).bind Text.readInt?).getD default

/-- The scan that switches ask for. -/
def scanOf (r : Switch.Reading Key) (target : String) : ScanRequest :=
  let default : ScanRequest := { target }
  { target
    pattern := (r.value? .pattern).getD default.pattern
    format := .ofWord ((r.value? .format).getD "text")
    output := r.value? .output
    visitBudget := wholeOr r .visitBudget default.visitBudget
    loopUnroll := wholeOr r .loopUnroll default.loopUnroll
    followUnwind := (r.value? .followUnwind).isSome
    jobs := wholeOr r .jobs default.jobs
    function := r.value? .function
    failOn := .ofWord ((r.value? .failOn).getD "any")
    verbose := (r.value? .verbose).isSome }

/-- The look at a graph that switches ask for. -/
def graphOf (r : Switch.Reading Key) (target : String) : GraphRequest :=
  { target, function := (r.value? .function).getD "",
    format := .ofWord ((r.value? .format).getD "text") }

/-- What is required and not given. -/
def lacking (switches : List (Switch Key)) (r : Switch.Reading Key) : List String :=
  (if r.target.isNone then ["target"] else []) ++
    (switches.filter fun s => s.required && (r.value? s.key).isNone).map (·.title)

/-- Reads the arguments of a command; gives also those that it does not know. -/
def command (switches : List (Switch Key)) (request : Switch.Reading Key → String → Request)
    (args : List String) : Except UsageFault (Request × List String) := do
  let ts ← Switch.tokens switches args
  let r ← Switch.read switches false false ts {}
  if r.final.isSome then return (.help, [])
  match lacking switches r, r.target with
  | [], some target => .ok (request r target, r.extras)
  | names, _ => .error (.required names)

/-- An error of a command. -/
def within {α : Type} (name : String) (r : Except UsageFault α) : Except UsageError α :=
  r.mapError (⟨name, ·⟩)

/-- Reads the command at the start of `args`; `extras` are the arguments not known so far. -/
def dispatch (extras : List String) : List String → Except UsageError Request
  | [] =>
    if extras.isEmpty then .ok .help else .error ⟨programName, .unrecognized extras⟩
  | name :: args => do
    let (request, unknown) ←
      if name = "scan" then
        within s!"{programName} scan" (command scanSwitches (fun r t => .scan (scanOf r t)) args)
      else if name = "cfg" then
        within s!"{programName} cfg" (command graphSwitches (fun r t => .graph (graphOf r t)) args)
      else .error ⟨programName, .notAllowed "command" name commands⟩
    match request, extras ++ unknown with
    | .help, _ => .ok .help
    | request, [] => .ok request
    | _, unknown => .error ⟨programName, .unrecognized unknown⟩

/-- Reads the switches before the command. -/
def outer : List (Switch.Token Key × String) → (extras : List String) → Except UsageError Request
  | [], extras => dispatch extras []
  | (.switch arg o, _) :: rest, extras => do
    let (r, _) ← within programName (Switch.settle outerSwitches arg o none { extras })
    match r.final with
    | some .version => .ok .version
    | some _ => .ok .help
    | none => outer rest r.extras
  | (.marker, _) :: [], extras => dispatch (extras ++ ["--"]) []
  | (_, arg) :: rest, extras => dispatch extras (arg :: rest.map (·.2))

/-- Reads a command line. -/
def ofArgs (args : List String) : Except UsageError Request := do
  let ts ← within programName (Switch.tokens outerSwitches args)
  outer (ts.zip args) []

end Request

end Dangling
