import FlatCode.Text.Paint
import FlatCode.Text.Uncolored

/-! What can be wrong with a command line, and the report that the command gives of it. -/
namespace FlatCode.Command
open Text (Paint)

inductive UsageError where
  | unexpectedArgument (name : String)
  | unexpectedValue (value display : String)
  | missingValue (display : String)
  | repeatedArgument (display : String)
  | missingInputs
  | notAFile (path : String)
  deriving DecidableEq

/-- How the pieces of a report look. -/
inductive Look where
  | problem | heading | literal | invalid
  deriving DecidableEq

namespace Look

/-- The renditions of a terminal: bold, underlined, red and yellow are 1, 4, 31 and 33. -/
def renditions : Look → List Nat
  | problem => [1, 31]
  | heading => [1, 4]
  | literal => [1]
  | invalid => [33]

def select (n : Nat) : String := "\x1b[" ++ String.ofList (Nat.toDigits 10 n) ++ "m"

def apply (look : Look) (s : String) : String :=
  String.join (look.renditions.map select) ++ s ++ select 0

end Look

namespace UsageError

/-- What is wrong. Paths stand as they are; all else that was given is marked. -/
def message : UsageError → String
  | unexpectedArgument name => "unexpected argument '" ++ Look.invalid.apply name ++ "' found"
  | unexpectedValue value display =>
    "unexpected value '" ++ Look.invalid.apply value ++ "' for '" ++ Look.literal.apply display ++
      "' found; no more were expected"
  | missingValue display =>
    "a value is required for '" ++ Look.invalid.apply display ++ "' but none was supplied"
  | repeatedArgument display =>
    "the argument '" ++ Look.invalid.apply display ++ "' cannot be used multiple times"
  | missingInputs => "Missing input files!"
  | notAFile path => "Input path '" ++ path ++ "' is not a file!"

/-- The name in the usage line: that of the command, or of its package once the arguments
themselves are in order. -/
def program : UsageError → String
  | missingInputs | notAFile _ => "bound-lower"
  | _ => "boundc"

/-- The message, how the command is used, and where to read more. -/
def report (e : UsageError) : String :=
  Look.problem.apply "error:" ++ " " ++ e.message ++ "\n\n" ++
    Look.heading.apply "Usage:" ++ " " ++ Look.literal.apply e.program ++
    " [OPTIONS] [INPUTS]...\n\nFor more information, try '" ++ Look.literal.apply "--help" ++
    "'.\n"

/-- Where no colors are shown the whole report is freed of control sequences, also of those that
came with the arguments. -/
def render (terminal : Paint) (e : UsageError) : String :=
  match terminal with
  | .colored => e.report
  | .plain => Text.uncolored e.report

end UsageError
end FlatCode.Command
