import MiniJava.Proofs.Grammar.Locality
import MiniJava.Proofs.Grammar.Resilience
import MiniJava.Proofs.Grammar.Termination
/-!
# One token of lookahead

What a statement or an expression is read as, what is reported on the way and where reading
stops depends on the tokens that are read and the one after them, and on nothing else.
-/

namespace MiniJava.Grammar

open Lexical Parse Relocatable

/-! ## Tokens that agree -/

theorem lexeme_of_alike {φ : Location → Location} {t t' : Token} (h : Alike φ t t') :
    t.toLexeme = t'.toLexeme := by
  have hmove : (move φ t).toLexeme = (move φ t').toLexeme := congrArg (·.toLexeme) h
  exact hmove

/-- Streams that would give alike tokens up to some request are alike up to there. -/
theorem agree_of_fronts {φ : Location → Location} {n : Nat} {finish finish' : Location}
    {ahead ahead' : List Token} (hwords : ∀ t ∈ ahead, t.isEndOfFile = false)
    (hwords' : ∀ t ∈ ahead', t.isEndOfFile = false)
    (h : ∀ i < n, Alike φ (frontOf finish (ahead.drop i)) (frontOf finish' (ahead'.drop i))) :
    Agree φ n finish finish' ahead ahead' := by
  induction n generalizing ahead ahead' with
  | zero => exact ⟨rfl, fun hlt => absurd hlt (Nat.not_lt_zero _)⟩
  | succ n ih =>
      have hfront := h 0 (Nat.succ_pos n)
      have hend : (frontOf finish ahead).isEndOfFile = (frontOf finish' ahead').isEndOfFile :=
        congrArg (·.kind == .endOfFile) (lexeme_of_alike hfront)
      cases ahead with
      | nil =>
          cases ahead' with
          | nil => exact ⟨rfl, fun _ => congrArg Token.location hfront⟩
          | cons t' rest' =>
              have ht' : t'.isEndOfFile = false := hwords' t' (List.mem_cons_self ..)
              exact absurd (hend.trans ht') Bool.noConfusion
      | cons t rest =>
          obtain ⟨ht, hrest⟩ := List.forall_mem_cons.1 hwords
          cases ahead' with
          | nil => exact absurd (hend.symm.trans ht) Bool.noConfusion
          | cons t' rest' =>
              have hlater := ih hrest (List.forall_mem_cons.1 hwords').2
                fun i hi => h (i + 1) (Nat.succ_lt_succ hi)
              refine ⟨?_, fun hlt => hlater.ends (Nat.lt_of_succ_lt_succ hlt)⟩
              rw [List.take_succ_cons, List.take_succ_cons, Alike, move_cons, move_cons,
                hlater.tokens]
              exact congrArg (· :: _) hfront

/-! ## Parsers -/

section

variable {p : Parse Node} {source text source' text' : String}

/-- What a production makes of a source is what a new parser on it yields, reports and counts. -/
theorem run_ofText (p : Parse Node) (source text : String) :
    let o := p.run (sourceEnd source text) (sourceTokens source text)
    let r := (Parser.ofStream (.ofText source text)).run p
    r.1 = o.value ∧ r.2.reported = o.trace.errors.map (·.diagnostic) ∧
      r.2.errors = o.trace.errors.length ∧ r.2.stream.emitted = o.trace.tokens.length + 1 := by
  intro o r
  have hfaces := faces_ofText source text
  have hrun := Parser.run_of_faces hfaces p
  refine ⟨congrArg Prod.fst hrun, ?_, ?_, ?_⟩
  · rw [Parser.reported_run hfaces, reported_ofText, List.nil_append]
  · exact (congrArg (·.2.errors) hrun).trans (Nat.zero_add _)
  · rw [congrArg (·.2.stream.emitted) hrun, Parser.emitted_follow, Nat.add_comm, Parser.ofStream,
      Parser.emitted_next]
    rfl

/-- What is read from a source is read from any other with the same tokens up to the one after
those read. -/
theorem run_eq_of_sourceToken (hp : ∀ shift, Simulates id shift p p)
    (h : ∀ n ≤ (p.run (sourceEnd source text) (sourceTokens source text)).trace.tokens.length,
      sourceToken source' text' n = sourceToken source text n) :
    (p.run (sourceEnd source' text') (sourceTokens source' text')).value =
        (p.run (sourceEnd source text) (sourceTokens source text)).value ∧
      (p.run (sourceEnd source' text') (sourceTokens source' text')).trace =
        (p.run (sourceEnd source text) (sourceTokens source text)).trace := by
  have hagree : Agree id
      ((p.run (sourceEnd source text) (sourceTokens source text)).trace.tokens.length + 1)
      (sourceEnd source text) (sourceEnd source' text') (sourceTokens source text)
      (sourceTokens source' text') := by
    refine agree_of_fronts (faces_ofText source text).words (faces_ofText source' text').words ?_
    intro n hn
    rw [← sourceToken_eq, ← sourceToken_eq, h n (Nat.le_of_lt_succ hn)]
  obtain ⟨hvalue, htrace⟩ :=
    hp ((sourceTokens source' text').length - (sourceTokens source text).length) (by omega) hagree
  have hstep : ∀ step : Step, move id step = step := by rintro (t | e) <;> rfl
  rw [Alike, move_id_result Node.relocate_id, move_id_result Node.relocate_id] at hvalue
  rw [Alike, move_id_list hstep, move_id_list hstep] at htrace
  exact ⟨hvalue.symm, htrace.symm⟩

end

/-- A statement or an expression read by a new parser takes the tokens before the one that the
parser then stands on.  Any source with the same tokens up to there has the same read from it,
with the same errors. -/
theorem one_token_of_lookahead (source text : String) {p : Parse Node}
    (hp : p = statement ∨ p = expression) :
    let q := Parser.ofStream (.ofText source text)
    let r := q.run p
    (∃ read, q.ahead = read ++ r.2.ahead ∧ r.2.stream.emitted = read.length + 1) ∧
      r.2.stream.current = sourceToken source text (r.2.stream.emitted - 1) ∧
      ∀ source' text',
        (∀ n < r.2.stream.emitted, sourceToken source' text' n = sourceToken source text n) →
        let r' := (Parser.ofStream (.ofText source' text')).run p
        r'.1 = r.1 ∧ r'.2.reported = r.2.reported ∧ r'.2.errors = r.2.errors ∧
          r'.2.stream.emitted = r.2.stream.emitted := by
  intro q r
  have hlocal : ∀ shift, Simulates id shift p p := by
    rcases hp with rfl | rfl
    · exact fun _ => simulates_statement
    · exact fun _ => simulates_expression
  have hfaces := faces_ofText source text
  have hrest := Parser.faces_run hfaces p
  obtain ⟨hvalue, hreported, herrors, hemitted⟩ := run_ofText p source text
  refine ⟨⟨_, ?_, hemitted⟩, ?_, fun source' text' h => ?_⟩
  · rw [Parser.ahead_of_faces hfaces, Parser.ahead_of_faces hrest]
    exact (p.conserves _ _).symm
  · rw [hrest.front, sourceToken_eq, hemitted, Nat.add_sub_cancel, ← (rest_eq_drop p _ _).1]
  · rw [hemitted] at h
    obtain ⟨hvalue', hreported', herrors', hemitted'⟩ := run_ofText p source' text'
    obtain ⟨hsame, htrace⟩ := run_eq_of_sourceToken hlocal fun n hn => h n (Nat.lt_succ_of_le hn)
    refine ⟨?_, ?_, ?_, ?_⟩
    · rw [hvalue', hsame, hvalue]
    · rw [hreported', htrace, hreported]
    · rw [herrors', htrace, herrors]
    · rw [hemitted', htrace, hemitted]

/-- A block with a faulty statement in it and a token after it, followed by the end or by more. -/
theorem one_token_of_lookahead_block :
    let text := "\x7b x + ; y = 1; \x7d while"
    let text' := "\x7b x + ; y = 1; \x7d while ( @ \x7d else"
    let r := (Parser.ofStream (.ofText "Block" text)).run statement
    let r' := (Parser.ofStream (.ofText "Block" text')).run statement
    (statement = statement ∨ statement = expression) ∧ r.2.stream.emitted = 10 ∧
      (∀ n < r.2.stream.emitted, sourceToken "Block" text' n = sourceToken "Block" text n) ∧
      r.2.errors = 1 ∧ r'.1 = r.1 ∧ r'.2.reported = r.2.reported ∧ r'.2.errors = r.2.errors ∧
      r'.2.stream.emitted = r.2.stream.emitted := by
  intro text text' r r'
  have hemitted : r.2.stream.emitted = 10 := by decide +kernel
  have htokens : ∀ n < r.2.stream.emitted,
      sourceToken "Block" text' n = sourceToken "Block" text n := by
    rw [hemitted]
    decide +kernel
  have herrors : r.2.errors = 1 := by decide +kernel
  have hsame := (one_token_of_lookahead "Block" text (.inl rfl)).2.2 "Block" text' htokens
  exact ⟨.inl rfl, hemitted, htokens, herrors, hsame⟩

end MiniJava.Grammar
