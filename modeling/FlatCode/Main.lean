import FlatCode.Command.Run

/-! The command on the file system of the machine. -/
namespace FlatCode
open Command

/-- A file that exists is a file also when it may not be read. -/
def machineIsFile (path : String) : IO Bool := do
  try
    discard (IO.FS.readBinFile path)
    pure true
  catch
    | .permissionDenied .. => pure true
    | _ => pure false

def machineRead (path : String) : IO (Option ByteArray) := do
  try return some (← IO.FS.readBinFile path) catch _ => pure none

def machineWrite (path text : String) : IO Bool := do
  try
    IO.FS.writeFile path text
    pure true
  catch _ => pure false

def machineFiles : Files IO := ⟨machineIsFile, machineRead, machineWrite⟩

/-- Colors are shown on a terminal, or where they are asked for. -/
def machineTerminal : IO Text.Paint := do
  match ← IO.getEnv "CLICOLOR_FORCE" with
  | some value => if value ≠ "0" then return .colored
  | none => pure ()
  if (← IO.getEnv "NO_COLOR").isSome then return .plain
  if ← (← IO.getStdout).isTty then return .colored
  pure .plain

end FlatCode

open FlatCode Command in
def main (args : List String) : IO UInt32 := do
  let outcome ← run machineFiles (← machineTerminal) args
  IO.print outcome.output
  IO.eprint outcome.diagnostics
  pure (UInt32.ofNat outcome.exit)
