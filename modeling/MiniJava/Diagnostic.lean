import MiniJava.Source
/-!
# Diagnostics

Errors in a source never stop the work on it. They are recorded in a log, in the
order in which they are found, and shown when the work is done.
-/

namespace MiniJava

/-- Whether a diagnostic concerns a word or the arrangement of words. -/
inductive Stage where
  | lexical
  | syntactic
  deriving DecidableEq, Repr

def Stage.title : Stage → String
  | lexical => "Token Error"
  | syntactic => "Syntax Error"

structure Diagnostic where
  stage : Stage
  location : Location
  message : String
  deriving DecidableEq, Repr

def Diagnostic.text (d : Diagnostic) : String :=
  d.stage.title ++ ": " ++ d.location.text ++ ": " ++ d.message

structure Log where
  newestFirst : List Diagnostic := []
  deriving DecidableEq, Repr

namespace Log

def entries (log : Log) : List Diagnostic := log.newestFirst.reverse

def push (log : Log) (d : Diagnostic) : Log := ⟨d :: log.newestFirst⟩

def append (log : Log) (ds : List Diagnostic) : Log := ⟨ds.reverse ++ log.newestFirst⟩

def size (log : Log) : Nat := log.newestFirst.length

def isEmpty (log : Log) : Bool := log.newestFirst.isEmpty

def count (log : Log) (stage : Stage) : Nat :=
  log.newestFirst.countP (·.stage == stage)

def take (log : Log) : List Diagnostic × Log := (log.entries, {})

@[simp] theorem entries_empty : entries {} = [] := rfl

@[simp] theorem entries_push (log : Log) (d : Diagnostic) :
    (log.push d).entries = log.entries ++ [d] := by
  simp [entries, push]

@[simp] theorem entries_append (log : Log) (ds : List Diagnostic) :
    (log.append ds).entries = log.entries ++ ds := by
  simp [entries, append]

theorem size_eq (log : Log) : log.size = log.entries.length := by
  simp [entries, size]

end Log

end MiniJava
