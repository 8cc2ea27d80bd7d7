import MiniJava.Proofs.Grammar.Complaint
import MiniJava.Proofs.Grammar.Source
import MiniJava.Proofs.Json.Numerals
import MiniJava.Proofs.Lexical.Quotation
/-!
# Newlines in listings and diagnostics

What is listed and what is reported names the source and quotes one word of it at most, and has no
other newlines than these; only the message that finds a newline in place of an exponent quotes
that one.
-/

namespace MiniJava

open Lexical Grammar Parse

/-! ## Numbers and places -/

theorem newline_not_mem_toDigits (n : Nat) : '\n' ∉ Nat.toDigits 10 n :=
  newline_not_mem_of_all (by decide) (Json.digits_toDigits n).2

theorem newlines_toString_nat (n : Nat) : newlines (toString n) = 0 := by
  show newlines n.repr = 0
  rw [Nat.repr_eq_ofList_toDigits, newlines_ofList (newline_not_mem_toDigits n)]

theorem newlines_toString_int (n : Int) : newlines (toString n) = 0 := by
  refine newlines_eq_zero ?_
  rw [Json.toList_toString_int]
  split
  · exact newline_not_mem_toDigits _
  · exact List.not_mem_cons_of_ne_of_not_mem (by decide) (newline_not_mem_toDigits _)

theorem newlines_location (l : Location) : newlines l.text = newlines l.source := by
  have hcolon : newlines ":" = 0 := by decide +kernel
  rw [Location.text]
  simp only [newlines_append, newlines_toString_nat, hcolon, Nat.add_zero]

theorem newlines_listing (t : Token) :
    newlines t.listing = newlines t.location.source + newlines t.text := by
  have hkind : newlines t.kind.description = 0 := by cases t.kind <;> decide +kernel
  have htab : newlines ":\t" = 0 ∧ newlines "\t" = 0 ∧ newlines "\t\t" = 0 := by decide +kernel
  obtain ⟨hplace, hone, htwo⟩ := htab
  rw [Token.listing]
  simp only [newlines_append, newlines_location, newlines_toString_int, hkind, hplace, hone, htwo,
    Nat.add_zero]

theorem newlines_diagnostic (d : Diagnostic) :
    newlines d.text = newlines d.location.source + newlines d.message := by
  have htitle : newlines d.stage.title = 0 := by cases d.stage <;> decide +kernel
  have hcolon : newlines ": " = 0 := by decide +kernel
  rw [Diagnostic.text]
  simp only [newlines_append, newlines_location, htitle, hcolon, Nat.add_zero, Nat.zero_add]

/-! ## Messages -/

theorem Token.Met.newlines_describe {t : Token} (h : t.Met) :
    newlines t.describe = newlines t.text := by
  rcases h with h | h
  · have hkind : newlines t.kind.description = 0 := by cases t.kind <;> decide +kernel
    have hquote : newlines " '" = 0 ∧ newlines "'" = 0 := by decide +kernel
    obtain ⟨hopen, hclose⟩ := hquote
    rw [Lexeme.describe, if_neg h.kind_ne_endOfFile]
    simp only [newlines_append, hkind, hopen, hclose, Nat.add_zero, Nat.zero_add]
  · rw [h]
    decide

namespace Grammar

theorem newlines_expectation (what : Expectation) : newlines what.text = 0 := by
  cases what with
  | terminal x => cases x <;> decide +kernel
  | kind k => cases k <;> decide +kernel
  | memberName => decide

theorem Complaint.About.newlines_message {x : Lexeme} {complaint : Complaint}
    (h : complaint.About x) :
    newlines complaint.message = 0 ∨ newlines complaint.message = newlines x.describe := by
  cases complaint with
  | emptyFile => exact .inl (by decide +kernel)
  | expected what found =>
      obtain rfl : found = x := h
      right
      show newlines ("Expected ' " ++ what.text ++ " ', but find " ++ found.describe) = _
      have hwords : newlines "Expected ' " = 0 ∧ newlines " ', but find " = 0 := by decide +kernel
      obtain ⟨hopen, hclose⟩ := hwords
      simp only [newlines_append, newlines_expectation, hopen, hclose, Nat.zero_add]
  | noExpression found =>
      obtain rfl : found = x := h
      right
      show newlines ("unknown token when expecting an expression, find " ++ found.describe) = _
      have hopen : newlines "unknown token when expecting an expression, find " = 0 := by
        decide +kernel
      rw [newlines_append, hopen, Nat.zero_add]
  | unexpectedEnd found =>
      obtain rfl : found = x := h
      right
      show newlines ("Find unexpected " ++ found.describe) = _
      have hopen : newlines "Find unexpected " = 0 := by decide +kernel
      rw [newlines_append, hopen, Nat.zero_add]
  | wrongNode => exact h.elim
  | unsupported construct =>
      cases construct with
      | inExpression found =>
          obtain rfl : found = x := h.1
          right
          show newlines ("unsupported construct: " ++ (found.describe ++ " in an expression")) = _
          have hwords : newlines "unsupported construct: " = 0 ∧
              newlines " in an expression" = 0 := by decide +kernel
          obtain ⟨hopen, hclose⟩ := hwords
          simp only [newlines_append, hopen, hclose, Nat.zero_add, Nat.add_zero]
      | _ => exact h.elim

theorem newlines_wrongNode (wanted found : NodeKind) :
    newlines (Complaint.wrongNode wanted found).message = 0 := by
  have hkind : ∀ kind : NodeKind, newlines kind.description = 0 := by
    intro kind
    cases kind <;> decide +kernel
  show newlines ("Expected ' " ++ wanted.description ++ " ', but find " ++ found.description) = 0
  simp only [newlines_append, hkind]
  decide +kernel

/-! ## What a parse records -/

theorem mem_log_skip {s : TokenStream} {n : Nat} {d : Diagnostic}
    (h : d ∈ (s.skip n).log.entries) : d ∈ s.log.entries ++ s.pending := by
  induction n generalizing s with
  | zero => exact List.mem_append_left _ h
  | succ n ih =>
      obtain ⟨found, hlog, hpending⟩ := s.log_next
      have hnext := ih (s := s.next) h
      rwa [hlog, List.append_assoc, ← hpending] at hnext

/-- Following a trace records what words are found wrong on the way, and the errors reported. -/
theorem mem_log_follow {trace : Trace} {s : TokenStream} {d : Diagnostic}
    (h : d ∈ (trace.foldl Step.follow s).log.entries) :
    d ∈ s.log.entries ++ s.pending ∨ ∃ e ∈ trace.errors, d = e.diagnostic := by
  induction trace generalizing s with
  | nil => exact .inl (List.mem_append_left _ h)
  | cons step trace ih =>
      cases step with
      | read t =>
          obtain ⟨found, hlog, hpending⟩ := s.log_next
          have hnext := ih (s := s.next) h
          rwa [hlog, List.append_assoc, ← hpending] at hnext
      | report e =>
          rcases ih (s := s.record e.diagnostic) h with hd | ⟨e', he', hd⟩
          · rw [TokenStream.record, Log.entries_push, List.append_assoc] at hd
            rcases List.mem_append.1 hd with hd | hd
            · exact .inl (List.mem_append_left _ hd)
            · rcases List.mem_cons.1 hd with rfl | hd
              · exact .inr ⟨e, List.mem_cons_self .., rfl⟩
              · exact .inl (List.mem_append_right _ hd)
          · exact .inr ⟨e', List.mem_cons_of_mem _ he', hd⟩

/-- A parse records what is wrong with words, and errors, each about a token of the source or with
the place of one. -/
theorem mem_log_parseText {source text : String} {d : Diagnostic}
    (h : d ∈ (parseText source text).2.stream.log.entries) :
    d ∈ (Readings.ofText source text.toList).diagnostics ∨
      ∃ (e : SyntaxError) (n : Nat), d = e.diagnostic ∧
        (e.About (sourceToken source text n) ∨ e.Drops [sourceToken source text n]) := by
  have hfaces := faces_ofText source text
  obtain ⟨found, -, hprogram⟩ := (Parser.ofStream (.ofText source text)).program_eq
  rw [parseText, hprogram, Parser.run_of_faces hfaces program] at h
  rcases mem_log_follow h with hd | ⟨e, he, rfl⟩
  · left
    obtain ⟨first, hlog, hpending⟩ := (TokenStream.ofText source text).log_next
    rw [Parser.ofStream, hlog, List.append_assoc, ← hpending] at hd
    exact hd
  · right
    have hwf : ∀ t ∈ sourceTokens source text, t.WellFormed := wellFormed_tokens source text.toList
    obtain ⟨-, hplaced⟩ := complains_program (frontOf (sourceEnd source text) _) hwf rfl
    rcases hplaced.about_or_drops e he with ⟨ahead, hahead, habout⟩ | hdrops
    · rw [program.conserves] at hahead
      obtain ⟨n, hn⟩ := exists_sourceToken_of_suffix hahead
      exact ⟨e, n, rfl, .inl (hn ▸ habout)⟩
    · rw [List.append_nil] at hdrops
      obtain ⟨hcomplaint, t, ht, hplace⟩ := hdrops
      have hread := List.mem_append_left
        (program.run (sourceEnd source text) (sourceTokens source text)).rest ht
      rw [program.conserves] at hread
      obtain ⟨n, rfl⟩ := exists_sourceToken_of_mem hread
      exact ⟨e, n, rfl, .inr ⟨hcomplaint, _, List.mem_singleton_self _, hplace⟩⟩

/-- Every request yields a token of the source that is named, with newlines in it only if it is a
character or a string. -/
theorem sourceToken_unbroken (source text : String) (n : Nat) :
    (sourceToken source text n).Unbroken ∧ (sourceToken source text n).location.source = source ∧
      (sourceToken source text n).Met := by
  have hseg := segmented_segments text.toList
  rw [sourceToken_eq]
  cases hdrop : (sourceTokens source text).drop n with
  | nil =>
      have hword : newlines "END_OF_FILE" = 0 := by decide +kernel
      refine ⟨fun hne => absurd hword hne, ?_, .inr rfl⟩
      have hending := hseg.ending_token source []
      exact congrArg (·.location.source) hending
  | cons t rest =>
      have ht : t ∈ sourceTokens source text :=
        List.mem_of_mem_drop (i := n) (hdrop ▸ List.mem_cons_self ..)
      obtain ⟨hunbroken, hsource⟩ := (hseg.unbroken source .origin).1 t ht
      exact ⟨hunbroken, hsource, .inl (wellFormed_tokens source text.toList t ht)⟩

/-- A message with newlines in it tells of a newline in place of an exponent, or it quotes a
character or a string that stands at its place, with as many newlines. -/
def Quotes (source text : String) (d : Diagnostic) : Prop :=
  newlines d.message ≠ 0 →
    d.stage = .lexical ∧ d.message = (Cause.noExponentDigit (some '\n')).message ∨
      d.stage = .syntactic ∧ ∃ n, let t := sourceToken source text n
        d.location = t.location ∧ (t.kind = .charLiteral ∨ t.kind = .stringLiteral) ∧
          newlines d.message = newlines t.text

theorem quotes_of_scan {source text : String} {d : Diagnostic}
    (h : d ∈ (Readings.ofText source text.toList).diagnostics) :
    d.location.source = source ∧ Quotes source text d := by
  obtain ⟨hsource, hmessage⟩ := ((segmented_segments text.toList).unbroken source .origin).2 d h
  exact ⟨hsource, fun hne =>
    .inl ⟨Readings.stage_diagnostics source .origin _ d h, hmessage hne⟩⟩

theorem quotes_of_parse {source text : String} {d : Diagnostic}
    (h : d ∈ (parseText source text).2.stream.log.entries) :
    d.location.source = source ∧ Quotes source text d := by
  rcases mem_log_parseText h with hd | ⟨e, n, rfl, he⟩
  · exact quotes_of_scan hd
  · obtain ⟨hunbroken, hsource, hmet⟩ := sourceToken_unbroken source text n
    rcases he with ⟨hplace, habout⟩ | ⟨⟨wanted, found, hcomplaint⟩, t, ht, hplace⟩
    · refine ⟨(congrArg Location.source hplace).trans hsource, fun hne => .inr ⟨rfl, n, ?_⟩⟩
      rcases habout.newlines_message with hnone | hquoted
      · exact absurd hnone hne
      · rw [hmet.newlines_describe] at hquoted
        have hword : newlines (sourceToken source text n).text ≠ 0 := hquoted ▸ hne
        exact ⟨hplace, hunbroken hword, hquoted⟩
    · rw [List.mem_singleton] at ht
      refine ⟨(congrArg Location.source (ht ▸ hplace)).trans hsource, fun hne => absurd ?_ hne⟩
      show newlines e.complaint.message = 0
      rw [hcomplaint, newlines_wrongNode]

end Grammar

end MiniJava
