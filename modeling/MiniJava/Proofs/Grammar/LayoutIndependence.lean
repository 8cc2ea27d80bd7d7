import MiniJava.Proofs.Grammar.Lookahead
import MiniJava.Proofs.Rendering.RoundTrip
import MiniJava.Proofs.Tree.Display
/-!
# Independence of layout

Two sources with the same lexemes may be spaced, commented and named as they like and hold any
malformed words: whatever parsers on them are asked for, they yield the same trees but for
places and report the same syntax errors.
-/

namespace MiniJava.Grammar

open Lexical Parse Relocatable

/-- What is told of a result without its place: the text of the tree, or the message of the
error. -/
def outline (value : Except SyntaxError Node) : Except String String :=
  (value.map Node.display).mapError SyntaxError.message

theorem outline_of_alike {φ : Location → Location} {value value' : Except SyntaxError Node}
    (h : Alike φ value value') : outline value = outline value' := by
  cases value with
  | ok n =>
      cases value' with
      | ok n' => exact congrArg Except.ok (Node.display_eq_of_alike (Except.ok.inj h))
      | error e' => exact absurd h nofun
  | error e =>
      cases value' with
      | ok n' => exact absurd h nofun
      | error e' =>
          have herror : (move φ e).message = (move φ e').message :=
            congrArg (·.message) (Except.error.inj h)
          exact congrArg Except.error herror

theorem messages_of_alike {φ : Location → Location} {trace trace' : Trace}
    (h : Alike φ trace trace') :
    trace.errors.map (·.message) = trace'.errors.map (·.message) := by
  have herrors := congrArg Trace.errors h
  rw [Trace.errors_move, Trace.errors_move] at herrors
  have hmove : ∀ es : List SyntaxError, (move φ es).map (·.message) = es.map (·.message) :=
    fun es => List.map_map
  rw [← hmove, herrors, hmove]

/-- Parsers with the same lexemes ahead that have reported the same messages. -/
structure Matched (q q' : Parser) (finish finish' : Location) (ahead ahead' : List Token) :
    Prop where
  faces : Faces q.stream finish ahead
  faces' : Faces q'.stream finish' ahead'
  tokens : Alike nowhere ahead ahead'
  messages : q.reported.map (·.message) = q'.reported.map (·.message)
  errors : q.errors = q'.errors

namespace Matched

variable {α : Type} [Relocatable α] {q q' : Parser} {finish finish' : Location}
  {ahead ahead' : List Token} {p : Parse α}

/-- Matched parsers do alike and stay matched. -/
theorem run (h : Matched q q' finish finish' ahead ahead') (hp : Simulates nowhere 0 p p) :
    Alike nowhere (q.run p).1 (q'.run p).1 ∧
      Matched (q.run p).2 (q'.run p).2 finish finish' (p.run finish ahead).rest
        (p.run finish' ahead').rest := by
  have hlength : ahead.length = ahead'.length := by
    rw [← length_move nowhere ahead, h.tokens, length_move]
  have hagree : Agree nowhere ((p.run finish ahead).trace.tokens.length + 1) finish finish'
      ahead ahead' := by
    refine ⟨?_, fun _ => rfl⟩
    rw [Alike, move_take, move_take, h.tokens]
  obtain ⟨hvalue, htrace⟩ := hp (by omega) hagree
  have hread := length_tokens_of_alike htrace
  refine ⟨?_, Parser.faces_run h.faces p, Parser.faces_run h.faces' p, ?_, ?_, ?_⟩
  · rw [Parser.run_of_faces h.faces, Parser.run_of_faces h.faces']
    exact hvalue
  · rw [(rest_eq_drop p finish ahead).1, (rest_eq_drop p finish' ahead').1, hread, Alike,
      move_drop, move_drop, h.tokens]
  · have hmessages := messages_of_alike htrace
    simp only [Parser.reported_run h.faces, Parser.reported_run h.faces', List.map_append,
      List.map_map, h.messages]
    exact congrArg (_ ++ ·) hmessages
  · have herrors := congrArg List.length (messages_of_alike htrace)
    rw [List.length_map, List.length_map] at herrors
    rw [Parser.run_of_faces h.faces, Parser.run_of_faces h.faces', h.errors, herrors]

theorem simulates_trees {φ : Location → Location} {shift : Int} (c : Call) :
    Simulates φ shift c.trees c.trees := by
  cases c with
  | program => exact simulates_map simulates_program fun _ _ ha => congrArg Program.classes ha
  | statement => exact simulates_map simulates_statement fun _ _ ha => congrArg ([·]) ha
  | expression => exact simulates_map simulates_expression fun _ _ ha => congrArg ([·]) ha

theorem after (h : Matched q q' finish finish' ahead ahead') (calls : List Call) :
    ∃ rest rest', Matched (q.after calls) (q'.after calls) finish finish' rest rest' := by
  induction calls generalizing q q' ahead ahead' with
  | nil => exact ⟨ahead, ahead', h⟩
  | cons c calls ih =>
      have hask := (h.run (simulates_trees c)).2
      rw [← Parser.ask_eq, ← Parser.ask_eq] at hask
      exact ih hask

theorem program_alike (h : Matched q q' finish finish' ahead ahead') :
    q.program.1.Same q'.program.1 := by
  obtain ⟨found, hfound, hprogram⟩ := q.program_eq
  obtain ⟨found', hfound', hprogram'⟩ := q'.program_eq
  have hvalue := (h.run simulates_program).1
  rw [hfound, hfound'] at hvalue
  rw [hprogram, hprogram']
  exact Except.ok.inj hvalue

end Matched

theorem alike_of_toLexeme {t t' : Token} (h : t.toLexeme = t'.toLexeme) : Alike nowhere t t' :=
  congrArg (Token.mk · _) h

theorem matched_ofText {source text source' text' : String}
    (h : ∀ n, (sourceToken source text n).toLexeme = (sourceToken source' text' n).toLexeme) :
    Matched (Parser.ofStream (.ofText source text)) (Parser.ofStream (.ofText source' text'))
      (sourceEnd source text) (sourceEnd source' text') (sourceTokens source text)
      (sourceTokens source' text') := by
  have hfaces := faces_ofText source text
  have hfaces' := faces_ofText source' text'
  have hagree : ∀ n, Agree nowhere n (sourceEnd source text) (sourceEnd source' text')
      (sourceTokens source text) (sourceTokens source' text') := by
    refine fun n => agree_of_fronts hfaces.words hfaces'.words fun i _ => ?_
    rw [← sourceToken_eq, ← sourceToken_eq]
    exact alike_of_toLexeme (h i)
  have htokens := (hagree (max (sourceTokens source text).length
    (sourceTokens source' text').length)).tokens
  rw [List.take_of_length_le (Nat.le_max_left ..), List.take_of_length_le (Nat.le_max_right ..)]
    at htokens
  exact ⟨hfaces, hfaces', htokens, by rw [reported_ofText, reported_ofText], rfl⟩

/-- Two sources with the same lexemes are parsed alike, whatever has been asked for before: the
programs, statements and expressions are the same but for their places and have the same texts,
errors are told of in the same cases, and the syntax errors have the same messages. -/
theorem layout_independent {source text source' text' : String}
    (h : ∀ n, (sourceToken source text n).toLexeme = (sourceToken source' text' n).toLexeme)
    (calls : List Call) :
    let q := (Parser.ofStream (.ofText source text)).after calls
    let q' := (Parser.ofStream (.ofText source' text')).after calls
    q.hadError = q'.hadError ∧ q.reported.map (·.message) = q'.reported.map (·.message) ∧
      q.program.1.Same q'.program.1 ∧ q.program.1.display = q'.program.1.display ∧
      Alike nowhere q.statement.1 q'.statement.1 ∧ outline q.statement.1 = outline q'.statement.1 ∧
      Alike nowhere q.expression.1 q'.expression.1 ∧
      outline q.expression.1 = outline q'.expression.1 := by
  intro q q'
  obtain ⟨rest, rest', hmatched⟩ := (matched_ofText h).after calls
  have hprogram := hmatched.program_alike
  have hstatement := (hmatched.run simulates_statement).1
  have hexpression := (hmatched.run simulates_expression).1
  refine ⟨?_, hmatched.messages, hprogram, Program.display_eq_of_alike hprogram, hstatement,
    outline_of_alike hstatement, hexpression, outline_of_alike hexpression⟩
  show (_ != _) = (_ != _)
  rw [hmatched.errors]

theorem toLexeme_sourceToken {source text source' text' : String}
    (h : (sourceTokens source text).map (·.toLexeme) =
      (sourceTokens source' text').map (·.toLexeme)) (n : Nat) :
    (sourceToken source text n).toLexeme = (sourceToken source' text' n).toLexeme := by
  have hfront : ∀ finish (ts : List Token), (frontOf finish (ts.drop n)).toLexeme =
      ((ts.map (·.toLexeme)).drop n).headD .endOfFile := by
    intro finish ts
    rw [← List.map_drop]
    cases ts.drop n <;> rfl
  rw [sourceToken_eq, sourceToken_eq, hfront, hfront, h]

/-- A class with a faulty statement, as it is usually written. -/
def tidy : String :=
  "class Main \x7b public static void main(String[] a) \x7b x = (1 + ; y = 'c'; \x7d \x7d"

/-- The same class with other spacing, with comments and with malformed words in it. -/
def untidy : String :=
  "class/**/Main\x7bpublic static @ void main(String [ ] a)\n" ++
    "\x7bx=(1+;_z y='c' // all\n;\x7d 09a \x7d #"

theorem layout_independent_tidy :
    let q := (Parser.ofStream (.ofText "Tidy" tidy)).after [.program]
    let q' := (Parser.ofStream (.ofText "Untidy" untidy)).after [.program]
    (∀ n, (sourceToken "Tidy" tidy n).toLexeme = (sourceToken "Untidy" untidy n).toLexeme) ∧
      q.hadError = true ∧ q'.hadError = true ∧
      q.reported.map (·.message) = q'.reported.map (·.message) := by
  intro q q'
  have hlexemes : ∀ n,
      (sourceToken "Tidy" tidy n).toLexeme = (sourceToken "Untidy" untidy n).toLexeme :=
    toLexeme_sourceToken (by decide +kernel)
  have hsame := layout_independent hlexemes [.program]
  have herror : q.hadError = true := by decide +kernel
  exact ⟨hlexemes, herror, hsame.1.symm.trans herror, hsame.2.1⟩

end MiniJava.Grammar
