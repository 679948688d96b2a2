import FlatCode.Command.UsageError

/-! The arguments of the command line. They are read from left to right; what an argument
gathers is checked when the next one begins, or at the end. -/
namespace FlatCode.Command

structure Arguments where
  inputs : List String
  /-- Where the listing is written instead of standard output. -/
  output : Option String
  traceCalls : Bool
  debugComments : Bool
  noColor : Bool
  verbosity : Nat
  deriving DecidableEq

def Arguments.none : Arguments := ⟨[], Option.none, false, false, false, 0⟩

inductive Flag where
  | traceCalls | debugComments | noColor | verbose | version
  deriving DecidableEq

namespace Flag

def ofLong? : String → Option Flag
  | "trace-calls" => some .traceCalls
  | "debug-comments" => some .debugComments
  | "no-color" => some .noColor
  | "verbose" => some .verbose
  | "version" => some .version
  | _ => none

def ofShort? : Char → Option Flag
  | 'v' => some .verbose
  | 'V' => some .version
  | _ => none

/-- How messages show a flag. The one that may be repeated ends in dots. -/
def display : Flag → String
  | .traceCalls => "--trace-calls"
  | .debugComments => "--debug-comments"
  | .noColor => "--no-color"
  | .verbose => "--verbose..."
  | .version => "--version"

end Flag

/-- How messages show the two arguments that take values. -/
def outputDisplay : String := "--output <OUTPUT>"

def inputsDisplay : String := "[INPUTS]..."

/-- Why reading ends early. -/
inductive Stop where
  | version
  | usage (e : UsageError)
  deriving DecidableEq

inductive Gathered where
  | nothing
  | output (value : Option String)
  | inputs (values : List String)
  deriving DecidableEq

structure Reading where
  checked : Arguments
  gathered : Gathered
  /-- Whether all that follows is an input. -/
  onlyInputs : Bool
  deriving DecidableEq

namespace Reading

def start : Reading := ⟨.none, .nothing, false⟩

/-- Checks what has been gathered. A value may not be empty. -/
def settle (r : Reading) : Except Stop Reading :=
  match r.gathered with
  | .nothing => .ok r
  | .output none => .error (.usage (.missingValue outputDisplay))
  | .output (some value) =>
    if r.checked.output.isSome then .error (.usage (.repeatedArgument outputDisplay))
    else if value.isEmpty then .error (.usage (.missingValue outputDisplay))
    else .ok { r with checked := { r.checked with output := some value }, gathered := .nothing }
  | .inputs values =>
    if values.any String.isEmpty then .error (.usage (.missingValue inputsDisplay))
    else
      let inputs := r.checked.inputs ++ values
      .ok { r with checked := { r.checked with inputs := inputs }, gathered := .nothing }

def addInput (r : Reading) (value : String) : Except Stop Reading :=
  match r.gathered with
  | .inputs values => .ok { r with gathered := .inputs (values ++ [value]) }
  | _ => do
    let r ← r.settle
    pure { r with gathered := .inputs [value] }

/-- Switches something on that can only be switched on once. -/
def once (f : Flag) (isOn : Bool) (a : Arguments) : Except Stop Arguments :=
  if isOn then .error (.usage (.repeatedArgument f.display)) else .ok a

def setFlag (a : Arguments) : Flag → Except Stop Arguments
  | .traceCalls => once .traceCalls a.traceCalls { a with traceCalls := true }
  | .debugComments => once .debugComments a.debugComments { a with debugComments := true }
  | .noColor => once .noColor a.noColor { a with noColor := true }
  | .verbose => .ok { a with verbosity := a.verbosity + 1 }
  | .version => .error .version

def addFlag (r : Reading) (f : Flag) : Except Stop Reading := do
  let r ← r.settle
  let checked ← setFlag r.checked f
  pure { r with checked := checked }

/-- Begins the output argument. A value that is attached to it is checked at once. -/
def addOutput (r : Reading) (value : Option String) : Except Stop Reading := do
  let r ← r.settle
  let r := { r with gathered := .output value }
  if value.isSome then r.settle else pure r

/-- An argument that starts with two dashes, given without them. -/
def addLong (r : Reading) (text : List Char) : Except Stop Reading :=
  let name := String.ofList (text.takeWhile fun c => c ≠ '=')
  let value := match text.dropWhile fun c => c ≠ '=' with
    | [] => none
    | _ :: value => some (String.ofList value)
  if name = "output" then r.addOutput value
  else
    match Flag.ofLong? name, value with
    | none, _ => .error (.usage (.unexpectedArgument ("--" ++ name)))
    | some f, some value => .error (.usage (.unexpectedValue value f.display))
    | some f, none => r.addFlag f

/-- The value attached to a short name, with or without an equals sign between them. -/
def attachedValue : List Char → Option String
  | [] => none
  | '=' :: value => some (String.ofList value)
  | value => some (String.ofList value)

/-- An argument that starts with one dash: flags, and at the end perhaps the output. -/
def addShorts (r : Reading) : List Char → Except Stop Reading
  | [] => .ok r
  | 'o' :: rest => r.addOutput (attachedValue rest)
  | c :: rest =>
    match Flag.ofShort? c with
    | none => .error (.usage (.unexpectedArgument ("-" ++ c.toString)))
    | some f => do
      let r ← r.addFlag f
      r.addShorts rest

/-- A text that starts with no dash, or is only one. -/
def addValue (r : Reading) (value : String) : Except Stop Reading :=
  match r.gathered with
  | .output none => .ok { r with gathered := .output (some value) }
  | _ => r.addInput value

def add (r : Reading) (arg : String) : Except Stop Reading :=
  if r.onlyInputs then r.addInput arg
  else
    match arg.toList with
    | ['-', '-'] => .ok { r with onlyInputs := true }
    | '-' :: '-' :: text => r.addLong text
    | ['-'] => r.addValue arg
    | '-' :: text => r.addShorts text
    | _ => r.addValue arg

end Reading

def Arguments.parse (args : List String) : Except Stop Arguments := do
  let r ← args.foldlM Reading.add .start
  let r ← r.settle
  pure r.checked

end FlatCode.Command
