import FlatCode.Code.Printer
import FlatCode.Command.Arguments
import FlatCode.Lower.Program
import FlatCode.Text.Visible
import FlatCode.Wire.Decode

/-! The command: reads programs, lowers them and prints or writes their listings. It reaches
files through three operations, so that it runs on a real file system and on one that is a
value. -/
namespace FlatCode.Command
open Text (Paint)

structure Files (m : Type → Type) where
  isFile : String → m Bool
  /-- The content of a file, if it can be read. -/
  read : String → m (Option ByteArray)
  /-- Replaces the content of a file, and tells whether that worked. -/
  write : String → String → m Bool

structure Outcome where
  exit : Nat
  /-- Printed to standard output. -/
  output : String
  /-- Printed to standard error. -/
  diagnostics : String
  deriving DecidableEq

def versionText : String := "bound-lower 0.1.0\n"

namespace Outcome

def success (output : String) : Outcome := ⟨0, output, ""⟩

def failure (message : String) : Outcome := ⟨1, "", "Error: " ++ message ++ "\n"⟩

def usage (terminal : Paint) (e : UsageError) : Outcome := ⟨2, "", e.render terminal⟩

end Outcome

/-- The options of a program together with those of the command line. -/
def withOptions (a : Arguments) (p : Ast.Program) : Ast.Program :=
  { p with options :=
    ⟨p.options.traceCalls || a.traceCalls, p.options.debugComments || a.debugComments⟩ }

def listing (paint : Paint) (codes : List (FunctionId × Code.Function)) : String :=
  String.intercalate "\n" (codes.map fun c => c.2.listing paint)

/-- The listing of the program that a file holds, or what is wrong with it. -/
def lowerContent (paint : Paint) (a : Arguments) (path : String) (content : Option ByteArray) :
    Except String String :=
  match content.bind String.fromUTF8? with
  | none => .error ("failed to read " ++ path)
  | some text =>
    match Wire.parseProgram? text with
    | none => .error (path ++ " is not a bound compilation unit")
    | some program =>
      match lowerProgram (withOptions a program) with
      | .error _ => .error ("failed to lower " ++ path)
      | .ok codes => .ok (listing paint codes)

variable {m : Type → Type} [Monad m]

def firstMissing (files : Files m) : List String → m (Option String)
  | [] => pure none
  | path :: paths => do
    if ← files.isFile path then firstMissing files paths else pure (some path)

def lowerFiles (files : Files m) (paint : Paint) (a : Arguments) :
    List String → m (Except String (List String))
  | [] => pure (.ok [])
  | path :: paths => do
    match lowerContent paint a path (← files.read path) with
    | .error message => pure (.error message)
    | .ok text =>
      match ← lowerFiles files paint a paths with
      | .error message => pure (.error message)
      | .ok texts => pure (.ok (text :: texts))

/-- Prints the listing, or writes what a terminal would show of it to a file. -/
def deliver (files : Files m) (output : Option String) (text : String) : m Outcome := do
  match output with
  | none => pure (.success text)
  | some path =>
    if ← files.write path (Text.visible text) then pure (.success "")
    else pure (.failure ("failed to write " ++ path))

def lowerAndDeliver (files : Files m) (terminal : Paint) (a : Arguments) : m Outcome := do
  let paint := if a.noColor || a.output.isSome then .plain else terminal
  match ← lowerFiles files paint a a.inputs with
  | .error message => pure (.failure message)
  | .ok texts => deliver files a.output (String.intercalate "\n" texts)

/-- Runs the command. `terminal` is how the standard streams show colors. -/
def run (files : Files m) (terminal : Paint) (args : List String) : m Outcome := do
  match Arguments.parse args with
  | .error .version => pure (.success versionText)
  | .error (.usage e) => pure (.usage terminal e)
  | .ok a =>
    if a.inputs.isEmpty then return .usage terminal .missingInputs
    match ← firstMissing files a.inputs with
    | some path => pure (.usage terminal (.notAFile path))
    | none => lowerAndDeliver files terminal a

end FlatCode.Command
