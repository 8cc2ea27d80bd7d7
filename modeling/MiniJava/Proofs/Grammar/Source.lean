import MiniJava.Proofs.Grammar.Progress
import MiniJava.Proofs.Grammar.Stream
import MiniJava.Proofs.Lexical.Spacing
/-!
# Parsing a source

A parser on a source sees exactly the tokens of its scan, all of them well formed, and what
it yields and reports is what the production of programs does with them.  After any calls it
is on some later tokens of its source.
-/

namespace MiniJava

namespace Lexical

/-- Every token of a source is well formed. -/
theorem wellFormed_tokens (source : String) (text : List Char) :
    ∀ t ∈ (Readings.ofText source text).tokens, t.WellFormed :=
  fun t ht => ((segmented_segments text).legible source _ t ht).wellFormed

end Lexical

namespace Grammar

open Lexical Parse

def sourceTokens (source text : String) : List Token :=
  (Readings.ofText source text.toList).tokens

def sourceEnd (source text : String) : Location :=
  (Readings.ofText source text.toList).ending.token.location

/-- The token that a number of requests after the first one yields. -/
def sourceToken (source text : String) (n : Nat) : Token :=
  ((TokenStream.ofText source text).skip (n + 1)).current

theorem faces_ofText (source text : String) :
    Faces (Parser.ofStream (.ofText source text)).stream (sourceEnd source text)
      (sourceTokens source text) := by
  have hending := (segmented_segments text.toList).ending_token source []
  refine Faces.of_next ?_ ?_ (Readings.stage_diagnostics source _ _)
  · rw [sourceEnd, Readings.ofText, ← Point.after_nil .origin, hending]
    exact hending
  · intro t ht
    have hkind := (wellFormed_tokens source text.toList t ht).kind_ne_endOfFile
    simpa [Token.isEndOfFile] using hkind

theorem ahead_ofText (source text : String) :
    (Parser.ofStream (.ofText source text)).ahead = sourceTokens source text :=
  Parser.ahead_of_faces (faces_ofText source text)

theorem finish_ofText (source text : String) :
    (Parser.ofStream (.ofText source text)).finish = sourceEnd source text :=
  Parser.finish_of_faces (faces_ofText source text)

theorem reported_ofText (source text : String) :
    (Parser.ofStream (.ofText source text)).reported = [] := by
  obtain ⟨found, hlog, hpending⟩ := (TokenStream.ofText source text).log_next
  rw [Parser.reported, Parser.ofStream, hlog, List.filter_eq_nil_iff]
  intro d hd
  have hstage := Readings.stage_diagnostics source .origin (segments text.toList) d
    (by
      show d ∈ (TokenStream.ofText source text).pending
      rw [hpending]
      exact List.mem_append_left _ hd)
  rw [hstage]
  decide

/-- Requests yield the tokens of a source and then its end. -/
theorem sourceToken_eq (source text : String) (n : Nat) :
    sourceToken source text n =
      frontOf (sourceEnd source text) ((sourceTokens source text).drop n) :=
  ((faces_ofText source text).skip n).front

theorem map_sourceToken (source text : String) :
    (List.range ((sourceTokens source text).length + 1)).map (sourceToken source text) =
      sourceTokens source text ++ [.endOfFile (sourceEnd source text)] := by
  apply List.ext_getElem
  · simp
  · intro i hi hi'
    rw [List.getElem_map, List.getElem_range, sourceToken_eq]
    by_cases hlt : i < (sourceTokens source text).length
    · rw [List.getElem_append_left hlt, List.drop_eq_getElem_cons hlt]
      rfl
    · rw [List.getElem_append_right (Nat.not_lt.1 hlt), List.drop_eq_nil_of_le (Nat.not_lt.1 hlt)]
      simp [Parse.frontOf]

theorem exists_sourceToken_of_mem {source text : String} {t : Token}
    (h : t ∈ sourceTokens source text) : ∃ n, sourceToken source text n = t := by
  obtain ⟨n, hn, rfl⟩ := List.getElem_of_mem h
  refine ⟨n, ?_⟩
  rw [sourceToken_eq, List.drop_eq_getElem_cons hn]
  rfl

/-- Whatever later tokens are ahead, the token at the front is one that a request yields. -/
theorem exists_sourceToken_of_suffix {source text : String} {rest : List Token}
    (h : rest <:+ sourceTokens source text) :
    ∃ n, sourceToken source text n = frontOf (sourceEnd source text) rest := by
  obtain ⟨read, hread⟩ := h
  refine ⟨read.length, ?_⟩
  rw [sourceToken_eq, ← hread, List.drop_left]

theorem parseText_of_run {source text : String} {p : Program} {trace : Trace}
    {rest : List Token}
    (h : program.run (sourceEnd source text) (sourceTokens source text) =
      ⟨.ok p, trace, rest⟩) :
    (parseText source text).1 = p ∧
      ((parseText source text).2.hadError = true ↔ trace.errors ≠ []) := by
  have hrun : (Parser.ofStream (.ofText source text)).run program =
      (.ok p, ⟨trace.foldl Step.follow (Parser.ofStream (.ofText source text)).stream,
        0 + trace.errors.length⟩) := by
    rw [Parser.run, ahead_ofText, finish_ofText, h]
    rfl
  unfold parseText Parser.program
  rw [hrun]
  refine ⟨rfl, ?_⟩
  simp [Parser.hadError]

/-! ## Calls -/

inductive Call where
  | program
  | statement
  | expression

def Call.trees : Call → Parse (List Node)
  | program => (·.classes) <$> Grammar.program
  | statement => ([·]) <$> Grammar.statement
  | expression => ([·]) <$> Grammar.expression

namespace Parser

def ask (q : Parser) : Call → Parser
  | .program => q.program.2
  | .statement => q.statement.2
  | .expression => q.expression.2

def after (q : Parser) (calls : List Call) : Parser := calls.foldl ask q

theorem program_eq (q : Parser) : ∃ found, (q.run Grammar.program).1 = .ok found ∧
    q.program = (found, (q.run Grammar.program).2) := by
  obtain ⟨found, trace, hrun⟩ := program_ok q.finish q.ahead
  have hvalue : (q.run Grammar.program).1 = .ok found := by
    rw [Parser.run, hrun]
  refine ⟨found, hvalue, ?_⟩
  rw [Parser.program, ← Prod.eta (q.run Grammar.program), hvalue]

theorem ask_eq (q : Parser) (c : Call) : q.ask c = (q.run c.trees).2 := by
  cases c with
  | program =>
      obtain ⟨found, -, hprogram⟩ := q.program_eq
      rw [ask, hprogram]
      rfl
  | statement => rfl
  | expression => rfl

theorem faces_after {q : Parser} {finish : Location} {ahead : List Token}
    (h : Faces q.stream finish ahead) (calls : List Call) :
    ∃ rest, Faces (q.after calls).stream finish rest ∧ rest <:+ ahead := by
  induction calls generalizing q ahead with
  | nil => exact ⟨ahead, h, List.suffix_refl _⟩
  | cons c calls ih =>
      have hask : Faces (q.ask c).stream finish (c.trees.run finish ahead).rest := by
        rw [ask_eq]
        exact faces_run h c.trees
      obtain ⟨rest, hrest, hsuffix⟩ := ih hask
      exact ⟨rest, hrest, hsuffix.trans ⟨_, c.trees.conserves finish ahead⟩⟩

end Parser

end Grammar

end MiniJava
