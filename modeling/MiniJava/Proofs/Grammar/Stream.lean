import MiniJava.Grammar.Parser
import MiniJava.Proofs.Lexical.Scan
/-!
# Parsers and their streams

The tokens ahead of a parser are those that its stream would give from now on.  Productions
move the stream past the tokens that they read and leave what comes later as it is, and the
log gains the syntax errors that they report, in order.
-/

namespace MiniJava

namespace Lexical

theorem Readings.stage_diagnostics (source : String) (p : Point) (gs : List Segment) :
    ∀ d ∈ (ofSegments source p gs).diagnostics, d.stage = .lexical := by
  induction gs generalizing p with
  | nil => exact List.forall_mem_nil _
  | cons g gs ih =>
      unfold ofSegments
      cases g.content with
      | gap => exact ih _
      | word lexeme => exact ih _
      | malformed first others =>
          dsimp only
          rw [diagnostics_precededBy]
          exact List.forall_mem_append.2 ⟨List.forall_mem_map.2 fun f _ => rfl, ih _⟩

namespace TokenStream

def pending (s : TokenStream) : List Diagnostic :=
  s.ahead.flatMap (·.diagnostics) ++ s.ending.diagnostics

/-- A request records the first of what is yet to be recorded. -/
theorem log_next (s : TokenStream) :
    ∃ found, s.next.log.entries = s.log.entries ++ found ∧ s.pending = found ++ s.next.pending := by
  unfold next
  cases hahead : s.ahead with
  | nil => exact ⟨s.ending.diagnostics, by simp [give], by simp [pending, hahead, give]⟩
  | cons r rest => exact ⟨r.diagnostics, by simp [give], by simp [pending, hahead, give]⟩

end TokenStream

end Lexical

namespace Grammar

open Lexical Parse

variable {α : Type}

/-- A stream has given the first of some tokens and would give the others and then the end.
What it has yet to record is about words. -/
structure Faces (s : TokenStream) (finish : Location) (ahead : List Token) : Prop where
  ending : s.ending.token = .endOfFile finish
  words : ∀ t ∈ ahead, t.isEndOfFile = false
  front : s.current = frontOf finish ahead
  behind : s.remaining = ahead.tail
  lexical : ∀ d ∈ s.pending, d.stage = .lexical

namespace Faces

variable {s : TokenStream} {finish : Location} {ahead rest : List Token}

theorem of_next (hending : s.ending.token = .endOfFile finish)
    (hwords : ∀ t ∈ s.remaining, t.isEndOfFile = false)
    (hlexical : ∀ d ∈ s.pending, d.stage = .lexical) : Faces s.next finish s.remaining := by
  have hpending : ∀ d ∈ s.next.pending, d.stage = .lexical := by
    obtain ⟨found, -, hsplit⟩ := s.log_next
    rw [hsplit] at hlexical
    exact (List.forall_mem_append.1 hlexical).2
  unfold TokenStream.next at hpending ⊢
  cases hahead : s.ahead with
  | nil =>
      have hnone : s.remaining = [] := by rw [TokenStream.remaining, hahead, List.map_nil]
      rw [hahead] at hpending
      rw [hnone] at hwords ⊢
      exact ⟨hending, hwords, hending, hnone, hpending⟩
  | cons r later =>
      have hcons : s.remaining = r.token :: later.map (·.token) := by
        rw [TokenStream.remaining, hahead, List.map_cons]
      rw [hahead] at hpending
      rw [hcons] at hwords ⊢
      exact ⟨hending, hwords, rfl, rfl, hpending⟩

theorem next (h : Faces s finish ahead) : Faces s.next finish ahead.tail := by
  have hwords : ∀ t ∈ s.remaining, t.isEndOfFile = false := by
    rw [h.behind]
    exact fun t ht => h.words t (List.mem_of_mem_tail ht)
  rw [← h.behind]
  exact of_next h.ending hwords h.lexical

theorem record (h : Faces s finish ahead) (d : Diagnostic) : Faces (s.record d) finish ahead :=
  ⟨h.ending, h.words, h.front, h.behind, h.lexical⟩

theorem skip (h : Faces s finish ahead) (n : Nat) : Faces (s.skip n) finish (ahead.drop n) := by
  induction n generalizing s ahead with
  | zero => exact h
  | succ n ih =>
      rw [← List.drop_tail]
      exact ih h.next

theorem follow {trace : Trace} (h : Faces s finish (trace.tokens ++ rest)) :
    Faces (trace.foldl Step.follow s) finish rest := by
  induction trace generalizing s with
  | nil => exact h
  | cons step trace ih =>
      cases step with
      | read t => exact ih h.next
      | report e => exact ih (h.record _)

/-- Along a trace, the errors reported are all that the log gains but for what is wrong with
words. -/
theorem reported_follow {trace : Trace} (h : Faces s finish (trace.tokens ++ rest)) :
    (trace.foldl Step.follow s).log.entries.filter (·.stage == .syntactic) =
      s.log.entries.filter (·.stage == .syntactic) ++ trace.errors.map (·.diagnostic) := by
  induction trace generalizing s with
  | nil => exact (List.append_nil _).symm
  | cons step trace ih =>
      cases step with
      | read t =>
          obtain ⟨found, hlog, hpending⟩ := s.log_next
          have hfound : found.filter (·.stage == .syntactic) = [] := by
            rw [List.filter_eq_nil_iff]
            intro d hd
            have hstage := h.lexical d (by rw [hpending]; exact List.mem_append_left _ hd)
            rw [hstage]
            decide
          have hread := ih (s := s.next) h.next
          rwa [hlog, List.filter_append, hfound, List.append_nil] at hread
      | report e =>
          have hreport := ih (h.record e.diagnostic)
          rw [TokenStream.record, Log.entries_push, List.filter_append] at hreport
          rw [List.foldl_cons, Step.follow, TokenStream.record, hreport, List.append_assoc]
          rfl

end Faces

namespace Parser

def reported (q : Parser) : List Diagnostic :=
  q.stream.log.entries.filter (·.stage == .syntactic)

variable {q : Parser} {finish : Location} {ahead : List Token}

theorem finish_of_faces (h : Faces q.stream finish ahead) : q.finish = finish :=
  congrArg Token.location h.ending

theorem ahead_of_faces (h : Faces q.stream finish ahead) : q.ahead = ahead := by
  rw [Parser.ahead, h.front, h.behind]
  cases ahead with
  | nil => rfl
  | cons t rest =>
      have ht : t.isEndOfFile = false := h.words t (List.mem_cons_self ..)
      simp [frontOf, ht]

theorem run_of_faces (h : Faces q.stream finish ahead) (p : Parse α) :
    q.run p = ((p.run finish ahead).value,
      ⟨(p.run finish ahead).trace.foldl Step.follow q.stream,
        q.errors + (p.run finish ahead).trace.errors.length⟩) := by
  rw [Parser.run, finish_of_faces h, ahead_of_faces h]

theorem faces_run (h : Faces q.stream finish ahead) (p : Parse α) :
    Faces (q.run p).2.stream finish (p.run finish ahead).rest := by
  rw [run_of_faces h]
  apply Faces.follow
  rwa [p.conserves]

theorem reported_run (h : Faces q.stream finish ahead) (p : Parse α) :
    (q.run p).2.reported =
      q.reported ++ (p.run finish ahead).trace.errors.map (·.diagnostic) := by
  have hfollow : Faces q.stream finish
      ((p.run finish ahead).trace.tokens ++ (p.run finish ahead).rest) := by
    rwa [p.conserves]
  rw [run_of_faces h]
  exact hfollow.reported_follow

end Parser

end Grammar

end MiniJava
