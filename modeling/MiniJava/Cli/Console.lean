import MiniJava.Cli.Disk
import MiniJava.Diagnostic
/-!
# Consoles

A console is the stream on which a run shows its diagnostics. A terminal shows the
title of a diagnostic in colour. Any stream may stop taking text.
-/

namespace MiniJava

inductive Colour where
  | yellow
  | red
  deriving DecidableEq, Repr

/-- Bold letters in a colour, as terminals that follow the common control sequences are told to
show them. -/
def Colour.bold (colour : Colour) (text : String) : String :=
  let number :=
    match colour with
    | .yellow => "11"
    | .red => "9"
  "\x1b[38;5;" ++ number ++ "m\x1b[1m" ++ text ++ "\x1b[0m"

def Stage.colour : Stage → Colour
  | .lexical => .yellow
  | .syntactic => .red

/-- The line shown on a terminal, where letters can be made bold and given a colour. -/
def Diagnostic.coloured (bold : Colour → String → String) (d : Diagnostic) : String :=
  bold d.stage.colour d.stage.title ++ ": " ++ d.location.text ++ ": " ++ d.message

namespace Cli

/-- Only so many characters of a text have been taken. -/
structure Interruption where
  taken : Nat
  cause : FileError

def Interruption.part (i : Interruption) (text : String) : String :=
  String.ofList (text.toList.take i.taken)

structure Console (m : Type → Type) where
  isTerminal : Bool
  /-- A text in bold letters of a colour, as the terminal is told to show it. -/
  bold : Colour → String → String
  /-- Puts out a text, all of it unless there is an interruption. -/
  put : String → m (Option Interruption)

namespace Console

variable {m : Type → Type}

/-- The console of a monad in a monad with a state of its own, which the console leaves alone. -/
def beside {σ : Type} [Monad m] (console : Console m) : Console (StateT σ m) :=
  { console with put := fun text => StateT.lift (console.put text) }

def line (console : Console m) (d : Diagnostic) : String :=
  (if console.isTerminal then d.coloured console.bold else d.text) ++ "\n"

variable [Monad m]

/-- No terminal, and takes every text. -/
def pipe : Console m where
  isTerminal := false
  bold _ text := text
  put _ := pure none

/-- Puts out texts one after another, up to the first that is not taken in full. Gives what
has been taken, and the cause of an interruption. -/
def putAll (console : Console m) : List String → m (String × Option FileError)
  | [] => pure ("", none)
  | text :: rest => do
    match ← console.put text with
    | some i => pure (i.part text, some i.cause)
    | none =>
      let (taken, failed) ← putAll console rest
      pure (text ++ taken, failed)

/-- Puts out a text as far as that goes. -/
def attempt (console : Console m) (text : String) : m String := do
  let (taken, _) ← console.putAll [text]
  pure taken

end Console

end Cli

end MiniJava
