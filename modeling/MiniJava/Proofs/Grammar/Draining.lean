import MiniJava.Proofs.Grammar.Source
/-!
# Draining the log

The diagnostics of a stream may be taken out of its log whenever no parser is using the stream.
Nothing that the stream and later parsers on it yield depends on that, and what was taken, followed
by what is left, is the log that there would be otherwise.
-/

namespace MiniJava

namespace Lexical

/-- A stream with some diagnostics taken out of its log, and the same stream with all of its log. -/
structure Drained (taken : List Diagnostic) (s whole : TokenStream) : Prop where
  same : whole = { s with log := whole.log }
  kept : taken ++ s.log.entries = whole.log.entries

namespace Drained

variable {taken : List Diagnostic} {s whole : TokenStream}

theorem refl (s : TokenStream) : Drained [] s s := ⟨rfl, List.nil_append _⟩

theorem exists_log (h : Drained taken s whole) :
    ∃ log : Log, whole = { s with log } ∧ taken ++ s.log.entries = log.entries :=
  ⟨whole.log, h.same, h.kept⟩

theorem next (h : Drained taken s whole) : Drained taken s.next whole.next := by
  obtain ⟨log, rfl, hlog⟩ := h.exists_log
  obtain ⟨source, ahead, ending, current, left, emitted, hadFault⟩ := s
  cases ahead with
  | nil => exact ⟨rfl, by simp [TokenStream.next, TokenStream.give, ← hlog]⟩
  | cons r rest => exact ⟨rfl, by simp [TokenStream.next, TokenStream.give, ← hlog]⟩

theorem record (h : Drained taken s whole) (d : Diagnostic) :
    Drained taken (s.record d) (whole.record d) := by
  obtain ⟨log, rfl, hlog⟩ := h.exists_log
  exact ⟨rfl, by simp [TokenStream.record, ← hlog]⟩

theorem take (h : Drained taken s whole) :
    Drained (taken ++ s.takeDiagnostics.1) s.takeDiagnostics.2 whole := by
  obtain ⟨log, rfl, hlog⟩ := h.exists_log
  refine ⟨rfl, ?_⟩
  show taken ++ s.log.entries ++ Log.entries {} = log.entries
  rw [Log.entries_empty, List.append_nil, hlog]

end Drained

end Lexical

namespace Grammar

open Lexical

variable {α : Type}

/-! ## What is asked for -/

inductive Answer where
  | token (t : Token)
  | item (t : Option Token)
  | program (found : Program) (hadError : Bool)
  | tree (result : Except SyntaxError Node) (hadError : Bool)

def Parser.respond (q : Parser) : Call → Answer × Parser
  | .program => (.program q.program.1 q.program.2.hadError, q.program.2)
  | .statement => (.tree q.statement.1 q.statement.2.hadError, q.statement.2)
  | .expression => (.tree q.expression.1 q.expression.2.hadError, q.expression.2)

def Parser.serve (q : Parser) : List Call → List Answer × TokenStream
  | [] => ([], q.stream)
  | c :: calls =>
    let (answer, q) := q.respond c
    let (answers, s) := q.serve calls
    (answer :: answers, s)

/-- Ways of using a stream: asking for a token or for the next word, and having a parser that is
asked for something. -/
inductive Operation where
  | next
  | iterate
  | parser (calls : List Call)

def Operation.perform (s : TokenStream) : Operation → List Answer × TokenStream
  | next => ([.token s.next.current], s.next)
  | iterate =>
    ([.item (if s.next.current.isEndOfFile then none else some s.next.current)], s.next)
  | parser calls => (Parser.ofStream s).serve calls

/-- What shows of an operation: its answers, and what the stream tells of itself afterwards. -/
structure Observation where
  answers : List Answer
  current : Token
  emitted : Nat
  hadFault : Bool

def Observation.of (answers : List Answer) (s : TokenStream) : Observation :=
  ⟨answers, s.current, s.emitted, s.hadFault⟩

/-- Using a stream, or taking out of its log what was recorded. -/
inductive Move where
  | perform (operation : Operation)
  | take

def Move.operation? : Move → Option Operation
  | perform operation => some operation
  | take => none

/-- A stream in use, with what has been observed and what has been taken. -/
structure Session where
  observations : List Observation
  taken : List Diagnostic
  stream : TokenStream

namespace Session

def make (x : Session) : Move → Session
  | .perform operation =>
    let (answers, s) := operation.perform x.stream
    { x with observations := x.observations ++ [.of answers s], stream := s }
  | .take =>
    let (found, s) := x.stream.takeDiagnostics
    { x with taken := x.taken ++ found, stream := s }

def ofText (source text : String) (moves : List Move) : Session :=
  moves.foldl make ⟨[], [], .ofText source text⟩

end Session

/-! ## Parsers -/

namespace Parser

variable {taken : List Diagnostic} {q whole : Parser}

theorem drained_follow {s whole : TokenStream} (h : Drained taken s whole) (trace : Trace) :
    Drained taken (trace.foldl Step.follow s) (trace.foldl Step.follow whole) := by
  induction trace generalizing s whole with
  | nil => exact h
  | cons step trace ih =>
      cases step with
      | read t => exact ih h.next
      | report e => exact ih (h.record _)

structure Drained (taken : List Diagnostic) (q whole : Parser) : Prop where
  stream : Lexical.Drained taken q.stream whole.stream
  errors : q.errors = whole.errors

theorem Drained.run (h : Drained taken q whole) (p : Parse α) :
    (q.run p).1 = (whole.run p).1 ∧ Drained taken (q.run p).2 (whole.run p).2 := by
  have hstream := h.stream.same
  have hahead : q.ahead = whole.ahead := by
    unfold Parser.ahead
    rw [hstream]
    rfl
  have hfinish : q.finish = whole.finish := by
    unfold Parser.finish
    rw [hstream]
  unfold Parser.run
  rw [hahead, hfinish]
  exact ⟨rfl, drained_follow h.stream _, congrArg (· + _) h.errors⟩

theorem Drained.hadError (h : Drained taken q whole) : q.hadError = whole.hadError := by
  rw [Parser.hadError, h.errors, Parser.hadError]

theorem Drained.respond (h : Drained taken q whole) (c : Call) :
    (q.respond c).1 = (whole.respond c).1 ∧
      Drained taken (q.respond c).2 (whole.respond c).2 := by
  cases c with
  | program =>
      obtain ⟨found, hfound, hprogram⟩ := q.program_eq
      obtain ⟨found', hfound', hprogram'⟩ := whole.program_eq
      obtain ⟨hvalue, hafter⟩ := h.run Grammar.program
      rw [hfound, hfound'] at hvalue
      obtain rfl := Except.ok.inj hvalue
      unfold Parser.respond
      rw [hprogram, hprogram']
      exact ⟨congrArg (Answer.program found) hafter.hadError, hafter⟩
  | statement =>
      obtain ⟨hvalue, hafter⟩ := h.run Grammar.statement
      exact ⟨congrArg₂ Answer.tree hvalue hafter.hadError, hafter⟩
  | expression =>
      obtain ⟨hvalue, hafter⟩ := h.run Grammar.expression
      exact ⟨congrArg₂ Answer.tree hvalue hafter.hadError, hafter⟩

theorem Drained.serve (h : Drained taken q whole) (calls : List Call) :
    (q.serve calls).1 = (whole.serve calls).1 ∧
      Lexical.Drained taken (q.serve calls).2 (whole.serve calls).2 := by
  induction calls generalizing q whole with
  | nil => exact ⟨rfl, h.stream⟩
  | cons c calls ih =>
      obtain ⟨hanswer, hafter⟩ := h.respond c
      obtain ⟨hanswers, hstream⟩ := ih hafter
      exact ⟨congrArg₂ List.cons hanswer hanswers, hstream⟩

end Parser

/-! ## Sessions -/

theorem Operation.perform_drained {taken : List Diagnostic} {s whole : TokenStream}
    (h : Drained taken s whole) (operation : Operation) :
    (operation.perform s).1 = (operation.perform whole).1 ∧
      Drained taken (operation.perform s).2 (operation.perform whole).2 := by
  have hcurrent : s.next.current = whole.next.current := by
    rw [h.next.same]
  cases operation with
  | next => exact ⟨by rw [perform, perform, hcurrent], h.next⟩
  | iterate => exact ⟨by rw [perform, perform, hcurrent], h.next⟩
  | parser calls =>
      have hparser : Parser.Drained taken (.ofStream s) (.ofStream whole) := ⟨h.next, rfl⟩
      exact hparser.serve calls

namespace Session

/-- A session in which diagnostics are taken, and one in which none are, with the same
observations. -/
structure Follows (x whole : Session) : Prop where
  observations : x.observations = whole.observations
  stream : Drained x.taken x.stream whole.stream
  untaken : whole.taken = []

theorem Follows.perform {x whole : Session} (h : x.Follows whole) (operation : Operation) :
    (x.make (.perform operation)).Follows (whole.make (.perform operation)) := by
  obtain ⟨hanswers, hafter⟩ := operation.perform_drained h.stream
  have hobserved : Observation.of (operation.perform x.stream).1 (operation.perform x.stream).2 =
      .of (operation.perform whole.stream).1 (operation.perform whole.stream).2 := by
    rw [hanswers, hafter.same]
    rfl
  exact ⟨congrArg₂ (· ++ [·]) h.observations hobserved, hafter, h.untaken⟩

theorem Follows.take {x whole : Session} (h : x.Follows whole) : (x.make .take).Follows whole :=
  ⟨h.observations, h.stream.take, h.untaken⟩

theorem Follows.foldl {x whole : Session} (h : x.Follows whole) (moves : List Move) :
    (moves.foldl make x).Follows
      (((moves.filterMap Move.operation?).map .perform).foldl make whole) := by
  induction moves generalizing x whole with
  | nil => exact h
  | cons move moves ih =>
      cases move with
      | perform operation => exact ih (h.perform operation)
      | take => exact ih h.take

end Session

/-- Whatever is asked of a stream and of parsers on it, and whenever diagnostics are taken between
these uses: every answer is as if none were, the stream is the same but for its log, and what was
taken and then what is left are the diagnostics that the log would hold. -/
theorem taking_interferes_with_nothing (source text : String) (moves : List Move) :
    let x := Session.ofText source text moves
    let whole := Session.ofText source text ((moves.filterMap Move.operation?).map .perform)
    x.observations = whole.observations ∧
      whole.stream = { x.stream with log := whole.stream.log } ∧ whole.taken = [] ∧
      x.taken ++ x.stream.log.entries = whole.stream.log.entries := by
  intro x whole
  have hstart : Session.Follows ⟨[], [], .ofText source text⟩ ⟨[], [], .ofText source text⟩ :=
    ⟨rfl, .refl _, rfl⟩
  have hfollows : x.Follows whole := hstart.foldl moves
  exact ⟨hfollows.observations, hfollows.stream.same, hfollows.untaken, hfollows.stream.kept⟩

end Grammar

end MiniJava
