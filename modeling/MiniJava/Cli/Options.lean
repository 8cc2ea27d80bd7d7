/-!
# Command line arguments

One source, an optional output and a flag. Arguments are judged from left to
right, and the first that is wrong, or that asks for the version or for help,
decides.
-/

namespace MiniJava.Cli

structure Options where
  source : String
  output : Option String
  tokens : Bool
  deriving DecidableEq, Repr

inductive Request where
  | run (options : Options)
  | version
  | help
  deriving DecidableEq, Repr

inductive UsageError where
  | unknownOption (argument : String)
  | repeatedFlag
  | flagValue (argument : String)
  | emptyPath
  | extraPath (argument : String)
  | noSource
  deriving DecidableEq, Repr

def UsageError.message : UsageError → String
  | unknownOption argument => "unexpected argument '" ++ argument ++ "' found"
  | repeatedFlag => "the argument '--tokens' cannot be used multiple times"
  | flagValue argument => "unexpected value in '" ++ argument ++ "'"
  | emptyPath => "a value is required for a path but none was supplied"
  | extraPath argument => "unexpected argument '" ++ argument ++ "' found"
  | noSource => "a source file is required"

namespace Request

/-- What the arguments so far say. -/
structure Progress where
  paths : List String := []
  tokens : Bool := false
  deriving DecidableEq, Repr

namespace Progress

def addPath (p : Progress) (path : String) : Except UsageError Progress :=
  if path = "" then .error .emptyPath
  else if 2 ≤ p.paths.length then .error (.extraPath path)
  else .ok { p with paths := p.paths ++ [path] }

def addTokens (p : Progress) : Except UsageError Progress :=
  if p.tokens then .error .repeatedFlag else .ok { p with tokens := true }

def close (p : Progress) : Except UsageError Request :=
  match p.paths with
  | [] => .error .noSource
  | [source] => .ok (.run ⟨source, none, p.tokens⟩)
  | source :: output :: _ => .ok (.run ⟨source, some output, p.tokens⟩)

end Progress

/-- An argument either leads on or decides the request. -/
abbrev Judgement := Except UsageError (Progress ⊕ Request)

/-- The letters after a single dash. -/
def judgeLetters (argument : String) (p : Progress) : List Char → Judgement
  | [] => .ok (.inl p)
  | 't' :: rest =>
    match p.addTokens with
    | .ok p => judgeLetters argument p rest
    | .error e => .error e
  | 'V' :: _ => .ok (.inr .version)
  | 'h' :: _ => .ok (.inr .help)
  | _ => .error (.unknownOption argument)

def judgeLong (argument : String) (p : Progress) : Judgement :=
  let name := String.ofList (argument.toList.takeWhile (· != '='))
  if name = "--tokens" ∨ name = "--version" ∨ name = "--help" then
    if name ≠ argument then .error (.flagValue argument)
    else if name = "--tokens" then p.addTokens.map .inl
    else if name = "--version" then .ok (.inr .version)
    else .ok (.inr .help)
  else .error (.unknownOption argument)

def judge (argument : String) (p : Progress) : Judgement :=
  match argument.toList with
  | '-' :: '-' :: _ => judgeLong argument p
  | '-' :: c :: rest => judgeLetters argument p (c :: rest)
  | _ => (p.addPath argument).map .inl

/-- The arguments that are left; after a lone pair of dashes all are paths. -/
def ofArguments (p : Progress) : List String → Except UsageError Request
  | [] => p.close
  | "--" :: rest =>
    match rest.foldlM Progress.addPath p with
    | .ok p => p.close
    | .error e => .error e
  | argument :: rest =>
    match judge argument p with
    | .ok (.inl p) => ofArguments p rest
    | .ok (.inr request) => .ok request
    | .error e => .error e

def parse (arguments : List String) : Except UsageError Request := ofArguments {} arguments

end Request

end MiniJava.Cli
