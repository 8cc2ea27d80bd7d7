import MiniJava.Cli.Run
/-!
# Command line

Carries out the request of a command line on the files and the console of the machine.
-/

namespace MiniJava.Cli

def FileError.ofSystem : IO.Error → FileError
  | .noFileOrDirectory .. => .notFound
  | .inappropriateType _ 21 _ => .isDirectory
  | .inappropriateType .. => .notDirectory
  | e => .other (toString e)

def machineFiles : Files IO where
  read path := do
    try
      let content ← IO.FS.readBinFile path
      match String.fromUTF8? content with
      | some text => pure (.ok text)
      | none => pure (.error .notText)
    catch e => pure (.error (.ofSystem e))
  write path text := do
    try
      IO.FS.writeFile path text
      pure (.ok ())
    catch e => pure (.error (.ofSystem e))

/-- The error stream of the machine. How much of a text it took before an error is not
known. -/
def machineConsole (isTerminal : Bool) : Console IO where
  isTerminal
  bold := Colour.bold
  put text := do
    try
      IO.eprint text
      pure none
    catch e => pure (some ⟨0, .ofSystem e⟩)

end MiniJava.Cli

open MiniJava.Cli in
def main (arguments : List String) : IO UInt32 := do
  match Request.parse arguments with
  | .error e =>
    IO.eprintln ("error: " ++ e.message)
    pure 2
  | .ok request =>
    let console := machineConsole (← (← IO.getStderr).isTty)
    let report ← request.carryOut machineFiles console
    IO.print report.stdout
    pure (UInt32.ofNat report.exit)
