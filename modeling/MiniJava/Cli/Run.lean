import MiniJava.Cli.Console
import MiniJava.Cli.Disk
import MiniJava.Cli.Options
import MiniJava.Grammar.Parser
import MiniJava.Json.Layout
import MiniJava.Tree.Display
/-!
# The program

A run reads one source, writes its tokens or its tree to one output, and then
shows the diagnostics. It fails, and shows no diagnostics, if a file can not be
read or written, and it fails after the output has been written if the
diagnostics can not all be shown. The run is written over the operations on files
and on a console that it needs, so that it can be carried out on the machine or
on values.
-/

namespace MiniJava.Cli

open MiniJava.Lexical (TokenStream)

structure Files (m : Type → Type) where
  read : String → m (Except FileError String)
  write : String → String → m (Except FileError Unit)

/-- What a run leaves behind besides files. What the console took has been shown already. -/
structure Report where
  exit : Nat
  stdout : String
  stderr : String
  deriving DecidableEq, Repr

/-- The listing of the tokens of a stream, the end of the source included, and the stream
after it. -/
def listTokens (s : TokenStream) : String × TokenStream :=
  let after := s.drain
  ("\n".intercalate ((s.remaining ++ [after.current]).map (·.listing)), after)

def showTree (s : TokenStream) : String × TokenStream :=
  let (program, parser) := (Grammar.Parser.ofStream s).program
  (String.ofList (Json.layout program.toJson.compact), parser.stream)

def caused (message : String) (cause : FileError) : String :=
  message ++ "\n\nCaused by:\n    " ++ cause.message

def unreadable (path : String) (cause : FileError) : String :=
  caused ("When trying to open file " ++ path ++ ", occurred error: " ++ cause.message) cause

def unwritable (path : String) (cause : FileError) : String :=
  caused ("failed to write " ++ path) cause

def errorText (message : String) : String := "Error: " ++ message ++ "\n"

/-- Ends a run with an error, which is shown after what has been shown so far. It makes no
difference whether the console takes it. -/
def fail {m : Type → Type} [Monad m] (console : Console m) (shown message : String) :
    m Report := do
  let taken ← console.attempt (errorText message)
  pure ⟨1, "", shown ++ taken⟩

/-- What a console that is no terminal shows of the diagnostics, one a line. -/
def shown (log : Log) : String :=
  String.join (log.entries.map fun d => d.text ++ "\n")

namespace Options

def target (o : Options) : String :=
  o.output.getD (if o.tokens then "tokenOut.txt" else "astOut.txt")

/-- The text to write for a source text, and the diagnostics met on the way. -/
def result (o : Options) (text : String) : String × Log :=
  let s := TokenStream.ofText o.source text
  let (out, after) := if o.tokens then listTokens s else showTree s
  (out ++ "\n", after.log)

def run {m : Type → Type} [Monad m] (files : Files m) (console : Console m) (o : Options) :
    m Report := do
  match ← files.read o.source with
  | .error cause => fail console "" (unreadable o.source cause)
  | .ok text =>
    let (out, log) := o.result text
    match ← files.write o.target out with
    | .error cause => fail console "" (unwritable o.target cause)
    | .ok () =>
      match ← console.putAll (log.entries.map console.line) with
      | (taken, none) => pure ⟨0, "", taken⟩
      | (taken, some cause) => fail console taken cause.message

end Options

def versionText : String := "mjava 0.1.0\n"

def helpText : String :=
  "Scan and parse MJava source files\n\n" ++
  "Usage: mjava [OPTIONS] <SOURCE> [OUTPUT]\n\n" ++
  "Arguments:\n" ++
  "  <SOURCE>  MJava source file\n" ++
  "  [OUTPUT]  Output file (default: tokenOut.txt with --tokens, astOut.txt otherwise)\n\n" ++
  "Options:\n" ++
  "  -t, --tokens   Write the token stream instead of the syntax tree\n" ++
  "  -h, --help     Print help\n" ++
  "  -V, --version  Print version\n"

/-- Carries out a request, on a console that takes everything if no other is given. -/
def Request.carryOut {m : Type → Type} [Monad m] (files : Files m) (request : Request)
    (console : Console m := .pipe) : m Report :=
  match request with
  | .run options => options.run files console
  | .version => pure ⟨0, versionText, ""⟩
  | .help => pure ⟨0, helpText, ""⟩

/-- The files of a disk that is passed along beside whatever else goes on. -/
def Disk.filesBeside (m : Type → Type) [Monad m] : Files (StateT Disk m) where
  read path := do
    let d ← get
    pure (d.read path)
  write path text := do
    let d ← get
    match d.write path text with
    | .ok d' =>
      set d'
      pure (.ok ())
    | .error cause => pure (.error cause)

/-- The files of a disk that is passed along. -/
def Disk.asFiles : Files (StateM Disk) := filesBeside Id

end MiniJava.Cli
