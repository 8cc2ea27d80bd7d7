import MiniJava.Proofs.Grammar.Complaint
import MiniJava.Proofs.Grammar.Source
import MiniJava.Proofs.Lexical.FaultOrder
/-!
# The order of diagnostics

The log of a parse is in the order of the source but for one kind of message: a node that is
dropped for its kind is reported where the node stands, once all of it has been read, and what
was wrong on the way stands in the log already.
-/

namespace MiniJava

instance (p q : Point) : Decidable (p.Before q) :=
  inferInstanceAs (Decidable (_ ∨ _ ∧ _))

instance (l m : Location) : Decidable (l.Before m) :=
  inferInstanceAs (Decidable (_ ∧ _))

instance (l m : Location) : Decidable (l.NotAfter m) :=
  inferInstanceAs (Decidable (_ ∨ _))

namespace Diagnostic

open Grammar

def IsMismatch (d : Diagnostic) : Prop :=
  d.stage = .syntactic ∧ ∃ wanted found, d.message = (Complaint.wrongNode wanted found).message

/-- The first of two diagnostics does not come after the second, or else only the second is about
a node of the wrong kind. -/
def InOrder (d d' : Diagnostic) : Prop :=
  d.location.NotAfter d'.location ∨ d'.IsMismatch ∧ ¬ d.IsMismatch

theorem not_isMismatch_of_lexical {d : Diagnostic} (h : d.stage = .lexical) : ¬ d.IsMismatch := by
  rintro ⟨hstage, -⟩
  rw [h] at hstage
  exact absurd hstage nofun

end Diagnostic

namespace Grammar

open Lexical Parse

/-! ## Messages -/

/-- What ends the description of no kind of node: a quotation mark, and the last word for the end
of a file. -/
theorem description_ends (found : NodeKind) :
    ¬ ['\x27'] <:+ found.description.toList ∧ ¬ ['f', 'i', 'l', 'e'] <:+ found.description.toList ∧
      4 ≤ found.description.toList.length := by
  cases found <;> decide

theorem describe_ends (x : Lexeme) :
    ['\x27'] <:+ x.describe.toList ∨ ['f', 'i', 'l', 'e'] <:+ x.describe.toList := by
  unfold Lexeme.describe
  split
  · exact .inr (by decide)
  · left
    rw [String.toList_append]
    exact List.suffix_append _ _

theorem wrongNode_message (wanted found : NodeKind) :
    (Complaint.wrongNode wanted found).message.toList.head? = some 'E' ∧
      found.description.toList <:+ (Complaint.wrongNode wanted found).message.toList := by
  show ("Expected ' " ++ _ ++ _ ++ _ : String).toList.head? = _ ∧
    _ <:+ ("Expected ' " ++ _ ++ _ ++ _ : String).toList
  simp only [String.toList_append]
  exact ⟨rfl, List.suffix_append _ _⟩

theorem expected_message (what : Expectation) (x : Lexeme) :
    x.describe.toList <:+ (Complaint.expected what x).message.toList := by
  show _ <:+ ("Expected ' " ++ _ ++ _ ++ _ : String).toList
  rw [String.toList_append]
  exact List.suffix_append _ _

theorem head_append_ne {word : String} {c : Char} (h : word.toList.head? = some c) (hc : c ≠ 'E')
    (text : String) : (word ++ text).toList.head? ≠ some 'E' := by
  rw [String.toList_append, List.head?_append, h]
  exact fun heq => hc (Option.some.inj heq)

/-- No other message reads like that about a node of the wrong kind. -/
theorem Complaint.About.message_ne {x : Lexeme} {complaint : Complaint}
    (h : complaint.About x) (wanted found : NodeKind) :
    complaint.message ≠ (Complaint.wrongNode wanted found).message := by
  intro heq
  obtain ⟨hhead, hend⟩ := wrongNode_message wanted found
  rw [← heq] at hhead hend
  cases complaint with
  | expected what y =>
      obtain ⟨hquote, hfile, hlength⟩ := description_ends found
      have hwords := expected_message what y
      rcases describe_ends y with hy | hy
      · exact hquote (List.suffix_of_suffix_length_le (hy.trans hwords) hend (by simp; omega))
      · exact hfile (List.suffix_of_suffix_length_le (hy.trans hwords) hend hlength)
  | wrongNode => exact h
  | emptyFile =>
      have hempty : Complaint.emptyFile.message.toList.head? = some 'T' := rfl
      rw [hempty] at hhead
      exact absurd hhead (by decide)
  | noExpression y =>
      exact absurd hhead (head_append_ne (c := 'u') rfl (by decide) y.describe)
  | unexpectedEnd y => exact absurd hhead (head_append_ne (c := 'F') rfl (by decide) y.describe)
  | unsupported construct =>
      exact absurd hhead (head_append_ne (c := 'u') rfl (by decide) construct.text)

theorem SyntaxError.About.not_isMismatch {e : SyntaxError} {t : Token} (h : e.About t) :
    ¬ e.diagnostic.IsMismatch := by
  rintro ⟨-, wanted, found, hmessage⟩
  exact h.2.message_ne wanted found hmessage

theorem SyntaxError.Drops.isMismatch {e : SyntaxError} {since : List Token} (h : e.Drops since) :
    e.diagnostic.IsMismatch := by
  obtain ⟨⟨wanted, found, hcomplaint⟩, -⟩ := h
  exact ⟨rfl, wanted, found, congrArg Complaint.message hcomplaint⟩

/-! ## The log -/

/-- The places of what a stream has yet to give, in the order in which it is found. -/
def upcoming (s : TokenStream) : List Location := Readings.places ⟨s.ahead, s.ending⟩

/-- A request gives a reading: what it records, its token, and what is then upcoming follow one
another. -/
theorem exists_reading_next {s : TokenStream} {l : Location}
    (h : (l :: upcoming s).Pairwise Location.NotAfter) :
    ∃ r : Reading, s.next.log.entries = s.log.entries ++ r.diagnostics ∧
      s.next.current = r.token ∧ (∀ d ∈ r.diagnostics, d ∈ s.pending) ∧
      (l :: (r.diagnostics.map (·.location) ++ r.token.location :: upcoming s.next)).Pairwise
        Location.NotAfter := by
  cases hahead : s.ahead with
  | cons r rest =>
      have hnext : s.next = { s.give r with ahead := rest } := by rw [TokenStream.next, hahead]
      have hplaces : upcoming s =
          r.diagnostics.map (·.location) ++ r.token.location :: upcoming s.next := by
        simp [upcoming, hnext, hahead, Readings.places, Reading.places, TokenStream.give]
      rw [hplaces] at h
      refine ⟨r, ?_, by rw [hnext]; rfl, ?_, h⟩
      · rw [hnext]
        exact Log.entries_append _ _
      · simp +contextual [TokenStream.pending, hahead]
  | nil =>
      have hnext : s.next =
          { s.give s.ending with ending := { s.ending with diagnostics := [] } } := by
        rw [TokenStream.next, hahead]
      have hplaces : upcoming s =
          s.ending.diagnostics.map (·.location) ++ [s.ending.token.location] := by
        simp [upcoming, hahead, Readings.places, Reading.places]
      have hend : upcoming s.next = [s.ending.token.location] := by
        simp [upcoming, hnext, hahead, Readings.places, Reading.places, TokenStream.give]
      refine ⟨s.ending, ?_, by rw [hnext]; rfl, by simp [TokenStream.pending, hahead], ?_⟩
      · rw [hnext]
        exact Log.entries_append _ _
      · rw [hplaces, ← List.cons_append] at h
        obtain ⟨hfound, -, hbefore⟩ := List.pairwise_append.1 h
        rw [hend, ← List.cons_append]
        refine List.pairwise_append.2 ⟨hfound, ?_, ?_⟩
        · exact (Location.NotAfter.refl _).ordered_cons (List.pairwise_singleton _ _)
        · intro m hm n hn
          exact hbefore m hm n (by simpa using hn)

/-- The log of a stream is in order and has not gone past the token given last, what is upcoming
will not come before it, and no node was dropped after some tokens given. -/
structure Orderly (s : TokenStream) (since : List Token) : Prop where
  recorded : s.log.entries.Pairwise Diagnostic.InOrder
  reached : ∀ d ∈ s.log.entries, d.location.NotAfter s.current.location
  upcoming : (s.current.location :: upcoming s).Pairwise Location.NotAfter
  passed : ∀ t ∈ since, t.location.NotAfter s.current.location
  dropped : ∀ d ∈ s.log.entries, d.IsMismatch → ∀ t ∈ since, d.location.NotAfter t.location

namespace Orderly

variable {s : TokenStream} {since : List Token} {e : SyntaxError}

theorem next (h : Orderly s since) (hlexical : ∀ d ∈ s.pending, d.stage = .lexical) :
    Orderly s.next (s.current :: since) := by
  obtain ⟨r, hlog, hcurrent, hpending, hordered⟩ := exists_reading_next h.upcoming
  obtain ⟨hstart, hrest⟩ := List.pairwise_cons.1 hordered
  obtain ⟨hfound, hlater, hbetween⟩ := List.pairwise_append.1 hrest
  obtain ⟨hafter, htoken⟩ := List.forall_mem_append.1 hstart
  have htoken : s.current.location.NotAfter r.token.location := htoken _ (List.mem_cons_self ..)
  rw [List.forall_mem_map] at hafter
  rw [← hcurrent] at htoken hlater
  refine ⟨?_, ?_, hlater, ?_, ?_⟩
  · rw [hlog, List.pairwise_append]
    refine ⟨h.recorded, (List.pairwise_map.1 hfound).imp fun hd => .inl hd, ?_⟩
    exact fun d hd d' hd' => .inl ((h.reached d hd).trans (hafter d' hd'))
  · rw [hlog, List.forall_mem_append]
    refine ⟨fun d hd => (h.reached d hd).trans htoken, fun d hd => ?_⟩
    rw [hcurrent]
    exact hbetween _ (List.mem_map_of_mem hd) _ (List.mem_cons_self ..)
  · exact List.forall_mem_cons.2 ⟨htoken, fun t ht => (h.passed t ht).trans htoken⟩
  · rw [hlog, List.forall_mem_append]
    refine ⟨fun d hd hmismatch => ?_, fun d hd hmismatch => ?_⟩
    · exact List.forall_mem_cons.2 ⟨h.reached d hd, h.dropped d hd hmismatch⟩
    · exact absurd hmismatch (Diagnostic.not_isMismatch_of_lexical (hlexical d (hpending d hd)))

theorem complain (h : Orderly s since) (he : e.About s.current) :
    Orderly (s.record e.diagnostic) since := by
  have hplace : e.diagnostic.location = s.current.location := he.1
  refine ⟨?_, ?_, h.upcoming, h.passed, ?_⟩
  · rw [TokenStream.record, Log.entries_push, List.pairwise_append]
    refine ⟨h.recorded, List.pairwise_singleton _ _, fun d hd d' hd' => ?_⟩
    rw [List.mem_singleton.1 hd', Diagnostic.InOrder, hplace]
    exact .inl (h.reached d hd)
  · rw [TokenStream.record, Log.entries_push, List.forall_mem_append, List.forall_mem_singleton]
    exact ⟨h.reached, .inl hplace⟩
  · rw [TokenStream.record, Log.entries_push, List.forall_mem_append, List.forall_mem_singleton]
    exact ⟨h.dropped, fun hmismatch => absurd hmismatch he.not_isMismatch⟩

theorem drop (h : Orderly s since) (he : e.Drops since) :
    Orderly (s.record e.diagnostic) [] := by
  have hmismatch := he.isMismatch
  obtain ⟨-, t, ht, hplace⟩ := he
  have hplace : e.diagnostic.location = t.location := hplace
  refine ⟨?_, ?_, h.upcoming, List.forall_mem_nil _, fun _ _ _ => List.forall_mem_nil _⟩
  · rw [TokenStream.record, Log.entries_push, List.pairwise_append]
    refine ⟨h.recorded, List.pairwise_singleton _ _, fun d hd d' hd' => ?_⟩
    rw [List.mem_singleton.1 hd']
    by_cases hd₀ : d.IsMismatch
    · left
      rw [hplace]
      exact h.dropped d hd hd₀ t ht
    · exact .inr ⟨hmismatch, hd₀⟩
  · rw [TokenStream.record, Log.entries_push, List.forall_mem_append, List.forall_mem_singleton]
    refine ⟨h.reached, ?_⟩
    rw [hplace]
    exact h.passed t ht

/-- What a production does keeps the log in order. -/
theorem follow {finish : Location} {rest : List Token} {trace : Trace} (h : Orderly s since)
    (hplaced : Placed True finish rest since trace)
    (hfaces : Faces s finish (trace.tokens ++ rest)) :
    ∃ later, Orderly (trace.foldl Step.follow s) later := by
  induction hplaced generalizing s with
  | nil => exact ⟨_, h⟩
  | @read since t trace _ ih =>
      have hcurrent : s.current = t := hfaces.front
      have hnext := h.next hfaces.lexical
      rw [hcurrent] at hnext
      exact ih hnext hfaces.next
  | @complain _ e trace habout _ ih =>
      have hcurrent : s.current = frontOf finish (trace.tokens ++ rest) := hfaces.front
      rw [← hcurrent] at habout
      exact ih (h.complain habout) (hfaces.record _)
  | drop _ hdrops _ ih => exact ih (h.drop hdrops) (hfaces.record _)

end Orderly

theorem orderly_ofText (source text : String) :
    ∃ since, Orderly (Parser.ofStream (.ofText source text)).stream since := by
  have hstart : Orderly (TokenStream.ofText source text) [] :=
    { recorded := .nil
      reached := List.forall_mem_nil _
      upcoming := (segmented_segments text.toList).places_ordered source .origin
      passed := List.forall_mem_nil _
      dropped := List.forall_mem_nil _ }
  exact ⟨_, hstart.next (Readings.stage_diagnostics source _ _)⟩

/-- The log of a parse is in order, except that a node of the wrong kind is reported, where it
stands, after the errors in it that are not of that kind. -/
theorem diagnostics_in_order (source text : String) :
    (parseText source text).2.stream.log.entries.Pairwise Diagnostic.InOrder := by
  have hfaces := faces_ofText source text
  have hrun := Parser.run_of_faces hfaces program
  obtain ⟨found, -, hprogram⟩ := (Parser.ofStream (.ofText source text)).program_eq
  obtain ⟨-, hplaced⟩ := complains_program _ (wellFormed_tokens source text.toList)
    (rfl : frontOf (sourceEnd source text) (sourceTokens source text) = _)
  rw [← program.conserves (sourceEnd source text) (sourceTokens source text)] at hfaces
  obtain ⟨since, hstart⟩ := orderly_ofText source text
  obtain ⟨later, hlater⟩ := hstart.follow (hplaced.mono (List.nil_subset since)) hfaces
  rw [parseText, hprogram, hrun]
  exact hlater.recorded

/-- An expression in place of a class, with a malformed word in it. -/
def misplaced : String :=
  "class M \x7b public static void main(String[] a) \x7b \x7d \x7d x = @ 1;"

theorem diagnostics_out_of_order :
    ¬ ((parseText "t.mj" misplaced).2.stream.log.entries.map (·.location)).Pairwise
      Location.NotAfter := by
  decide +kernel

end Grammar

end MiniJava
