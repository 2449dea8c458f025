import Dangling.Text.Numeral
import Dangling.Text.Quoted

/-!
# Cli — Switch

Reading a command line: switches with or without a value, given in full, by a unique beginning of
their long name, joined with their value, or several short ones in one argument.  Everything after
`--` is no switch.

* `Switch.tokens`: which arguments are switches.
* `Switch.read`: what the arguments say.
-/

namespace Dangling

/-- What values a switch takes. -/
inductive ValueRule where
  /-- The switch has no value. -/
  | flag
  /-- The switch has no value, and nothing after it matters. -/
  | final
  | text
  | whole
  | oneOf (words : List String)
  deriving DecidableEq, Repr, Inhabited

/-- A switch with its names; `κ` is what switches stand for. -/
structure Switch (κ : Type) where
  key : κ
  names : List String
  rule : ValueRule := .text
  required : Bool := false
  deriving Repr, Inhabited

/-- Why a command line cannot be read. -/
inductive UsageFault where
  | ambiguous (given : String) (names : List String)
  | noValue (switch : String)
  | ignoredValue (switch value : String)
  | notWhole (switch value : String)
  | notAllowed (switch value : String) (words : List String)
  | required (names : List String)
  | unrecognized (args : List String)
  deriving DecidableEq, Repr, Inhabited

/-- The wording of a refusal. -/
def UsageFault.message : UsageFault → String
  | .ambiguous given names => s!"ambiguous option: {given} could match " ++ ", ".intercalate names
  | .noValue switch => s!"argument {switch}: expected one argument"
  | .ignoredValue switch value =>
    s!"argument {switch}: ignored explicit argument " ++ Text.quoted value
  | .notWhole switch value => s!"argument {switch}: invalid int value: " ++ Text.quoted value
  | .notAllowed switch value words =>
    s!"argument {switch}: invalid choice: " ++ Text.quoted value ++ " (choose from " ++
      ", ".intercalate (words.map Text.quoted) ++ ")"
  | .required names => "the following arguments are required: " ++ ", ".intercalate names
  | .unrecognized args => "unrecognized arguments: " ++ " ".intercalate args

namespace Switch

variable {κ : Type}

/-- The name of a switch in messages. -/
def title (s : Switch κ) : String := "/".intercalate s.names

/-- The switch takes a value. -/
def takesValue (s : Switch κ) : Bool :=
  match s.rule with
  | .flag | .final => false
  | _ => true

/-- A switch as it is given: its full name, and the value joined to it. -/
structure Occurrence (κ : Type) where
  switch : Option (Switch κ)
  name : String
  /-- The value joined to the name. -/
  joined : Option (List Char) := none

/-- An argument of a command line. -/
inductive Token (κ : Type) where
  | plain (arg : String)
  /-- The end of switches. -/
  | marker
  | switch (arg : String) (occurrence : Occurrence κ)

/-- Splits an argument at the first equals sign. -/
def atEquals (cs : List Char) : Option (List Char × List Char) :=
  match cs.dropWhile (· != '=') with
  | _ :: value => some (cs.takeWhile (· != '='), value)
  | [] => none

/-- Every name with its switch. -/
def named (switches : List (Switch κ)) : List (String × Switch κ) :=
  switches.flatMap fun s => s.names.map (·, s)

/-- The switch of a name. -/
def ofName? (switches : List (Switch κ)) (name : List Char) : Option (Switch κ) :=
  (named switches).lookup (String.ofList name)

/-- The switches that an argument may be, other than by a full name. -/
def candidates (switches : List (Switch κ)) (cs : List Char) : List (Occurrence κ) :=
  match cs with
  | '-' :: '-' :: _ =>
    let (start, joined) := match atEquals cs with
      | some (start, value) => (start, some value)
      | none => (cs, none)
    (named switches).filterMap fun (name, s) =>
      if start.isPrefixOf name.toList then some ⟨some s, name, joined⟩ else none
  | _ =>
    (named switches).filterMap fun (name, s) =>
      if name.toList == cs.take 2 then some ⟨some s, name, some (cs.drop 2)⟩
      else if cs.isPrefixOf name.toList then some ⟨some s, name, none⟩
      else none

/-- The text is a negative number: digits, or digits after a point. -/
def isNegativeNumber (cs : List Char) : Bool :=
  match cs with
  | '-' :: rest =>
    let rest := if rest.getLast? == some '\n' then rest.dropLast else rest
    (!rest.isEmpty && rest.all Text.isDecimal) ||
      match rest.dropWhile Text.isDecimal with
      | '.' :: digits => !digits.isEmpty && digits.all Text.isDecimal
      | _ => false
  | _ => false

/-- What an argument is. -/
def token (switches : List (Switch κ)) (arg : String) : Except UsageFault (Token κ) :=
  let cs := arg.toList
  let full : Option (Occurrence κ) := match ofName? switches cs with
    | some s => some ⟨some s, arg, none⟩
    | none =>
      match atEquals cs with
      | some (name, value) =>
        (ofName? switches name).map fun s => ⟨some s, String.ofList name, some value⟩
      | none => none
  match cs, full with
  | '-' :: _ :: _, some o => .ok (.switch arg o)
  | '-' :: _ :: _, none =>
    match candidates switches cs with
    | [o] => .ok (.switch arg o)
    | [] =>
      if isNegativeNumber cs || cs.contains ' ' then .ok (.plain arg)
      else .ok (.switch arg ⟨none, arg, none⟩)
    | os => .error (.ambiguous arg (os.map (·.name)))
  | _, _ => .ok (.plain arg)

/-- What the arguments of a command line are. -/
def tokens (switches : List (Switch κ)) : List String → Except UsageFault (List (Token κ))
  | [] => .ok []
  | arg :: rest =>
    if arg = "--" then .ok (.marker :: rest.map .plain)
    else do
      let t ← token switches arg
      let ts ← tokens switches rest
      .ok (t :: ts)

/-- The switches of one argument: those with their values, and the one that still needs a value. -/
structure Cluster (κ : Type) where
  given : List (Switch κ × String) := []
  wanting : Option (Switch κ) := none

/-- The switches of one argument.  What is joined to a short switch without value names the next
short switch by its first character, and the rest is joined to that one. -/
def cluster (switches : List (Switch κ)) (single : Bool) : (fuel : Nat) → Switch κ →
    (joined : Option (List Char)) → Except UsageFault (Cluster κ)
  | 0, _, _ => .ok {}
  | _ + 1, s, none => .ok (if s.takesValue then { wanting := some s } else { given := [(s, "")] })
  | fuel + 1, s, some value =>
    if s.takesValue then .ok { given := [(s, String.ofList value)] }
    else
      match single, value with
      | true, c :: more =>
        match ofName? switches ['-', c] with
        | none => .error (.ignoredValue s.title (String.ofList value))
        | some next => do
          let found ← cluster switches single fuel next (if more.isEmpty then none else some more)
          .ok { found with given := (s, "") :: found.given }
      | _, _ => .error (.ignoredValue s.title (String.ofList value))

/-- What was read of a command line. -/
structure Reading (κ : Type) where
  settings : List (κ × String) := []
  target : Option String := none
  extras : List String := []
  /-- A final switch: nothing else matters. -/
  final : Option κ := none

/-- Checks the value of a switch. -/
def check (s : Switch κ) (value : String) : Except UsageFault Unit :=
  match s.rule with
  | .whole =>
    if (Text.readInt? value).isSome then .ok () else .error (.notWhole s.title value)
  | .oneOf words =>
    if words.contains value then .ok () else .error (.notAllowed s.title value words)
  | _ => .ok ()

/-- Takes switches in order, up to a final one. -/
def take : List (Switch κ × String) → Reading κ → Except UsageFault (Reading κ)
  | [], r => .ok r
  | (s, value) :: rest, r =>
    if s.rule == .final then .ok { r with final := some s.key }
    else do
      check s value
      take rest { r with settings := r.settings ++ [(s.key, value)] }

/-- The switches of one argument, given the argument after it; tells whether that was used. -/
def settle (switches : List (Switch κ)) (arg : String) (o : Occurrence κ) (after : Option (Token κ))
    (r : Reading κ) : Except UsageFault (Reading κ × Bool) :=
  match o.switch with
  | none => .ok ({ r with extras := r.extras ++ [arg] }, false)
  | some s => do
    let single := (o.name.toList.drop 1).head? != some '-'
    let found ← cluster switches single (arg.length + 1) s o.joined
    match found.wanting, after with
    | none, _ => .ok (← take found.given r, false)
    | some w, some (.plain value) => .ok (← take (found.given ++ [(w, value)]) r, true)
    | some w, _ => .error (.noValue w.title)

/-- Reads the arguments of a command with one target.  `skip` tells that an argument was used as a
value, `taken` that the argument before was the target: the end of switches then goes with it. -/
def read (switches : List (Switch κ)) : (skip taken : Bool) → List (Token κ) → Reading κ →
    Except UsageFault (Reading κ)
  | _, _, [], r => .ok r
  | true, _, _ :: rest, r => read switches false false rest r
  | false, _, .switch arg o :: rest, r =>
    match settle switches arg o rest.head? r with
    | .error fault => .error fault
    | .ok (r, used) => if r.final.isSome then .ok r else read switches used false rest r
  | false, _, .plain arg :: rest, r =>
    match r.target with
    | none => read switches false true rest { r with target := some arg }
    | some _ => read switches false false rest { r with extras := r.extras ++ [arg] }
  | false, taken, .marker :: rest, r =>
    if taken || (r.target.isNone && !rest.isEmpty) then read switches false false rest r
    else read switches false false rest { r with extras := r.extras ++ ["--"] }

/-- The last value given to a switch. -/
def Reading.value? [BEq κ] (r : Reading κ) (key : κ) : Option String :=
  (r.settings.reverse.find? fun x => x.1 == key).map (·.2)

end Switch

end Dangling
