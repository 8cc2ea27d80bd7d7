import MiniJava.Proofs.Lexical.Spacing
/-!
# The scanner at a place in a source

A scanner between two segments of a source has a point and the text that is left.  A gap moves it
on, a word ends the request for a token, and malformed text is reported and passed over before the
request goes on behind it.
-/

namespace MiniJava.Lexical

theorem segments_of_read? {text rest : List Char} {content : Content}
    (h : Segment.read? (text ++ rest) = some ⟨text, content⟩) :
    segments (text ++ rest) = ⟨text, content⟩ :: segments rest := by
  obtain ⟨_, hfronts⟩ := Segment.read?_fronts h
  exact segments_append hfronts.nonempty h

theorem Fault.diagnose_atStart (source : String) (p : Point) (text : List Char) (cause : Cause) :
    (atStart cause).diagnose source p text = ⟨.lexical, ⟨p, source⟩, cause.message⟩ := rfl

/-- How a request goes that is made at a point: the text that it passes, the text that it leaves,
what it reports at each attempt that it gives up, and the token that it gives. -/
inductive Request (source : String) :
    Point → List Char → List Char → List (List Diagnostic) → Token → Prop
  | finish {p : Point} : Request source p [] [] [] (.endOfFile ⟨p, source⟩)
  | word {p : Point} {left : List Char} {l : Lexeme} (h : l.WellFormed) :
      Request source p l.written left [] ⟨l, ⟨p, source⟩⟩
  | gap {p : Point} {text done left : List Char} {reports : List (List Diagnostic)} {t : Token}
      (h : GapText (done ++ left) text)
      (later : Request source (p.after text) done left reports t) :
      Request source p (text ++ done) left reports t
  | failure {p : Point} {text done left : List Char} {reports : List (List Diagnostic)} {t : Token}
      {first : Fault} {others : List Fault}
      (h : Segment.read? (text ++ (done ++ left)) = some ⟨text, .malformed first others⟩)
      (later : Request source (p.after text) done left reports t) :
      Request source p (text ++ done) left
        ((first :: others).map (·.diagnose source p text) :: reports) t

namespace TokenStream

def before (s : TokenStream) (p : Point) (text : List Char) : TokenStream :=
  let readings := Readings.ofSegments s.source p (segments text)
  { s with ahead := readings.words, ending := readings.ending }

def note (s : TokenStream) (found : List Diagnostic) : TokenStream :=
  { s with log := s.log.append found }

def faulty (s : TokenStream) : TokenStream := { s with hadFault := true }

theorem ofText_eq_before (source text : String) :
    ofText source text = (ofText source text).before .origin text.toList := rfl

variable (s : TokenStream) (p : Point)

/-! ## What a request does with the next segment -/

theorem next_before_nil :
    (s.before p []).next = (s.give ⟨[], .endOfFile ⟨p, s.source⟩⟩).before p [] := rfl

variable {text rest : List Char}

theorem before_gap (h : Segment.read? (text ++ rest) = some ⟨text, .gap⟩) :
    s.before p (text ++ rest) = s.before (p.after text) rest := by
  rw [before, segments_of_read? h]
  rfl

theorem next_before_word {l : Lexeme} (h : Segment.read? (text ++ rest) = some ⟨text, .word l⟩) :
    (s.before p (text ++ rest)).next =
      (s.give ⟨[], l, ⟨p, s.source⟩⟩).before (p.after text) rest := by
  rw [before, segments_of_read? h]
  rfl

/-- Diagnostics met before the next token are recorded with it. -/
theorem next_precededBy (found : Diagnostic) (others : List Diagnostic) (rs : Readings) :
    let later := rs.precededBy (found :: others)
    next { s with ahead := later.words, ending := later.ending } =
      (next { s.note (found :: others) with ahead := rs.words, ending := rs.ending }).faulty := by
  obtain ⟨words, ending⟩ := rs
  cases words with
  | nil => simp [Readings.precededBy, next, give, note, faulty, Log.append]
  | cons r words => simp [Readings.precededBy, next, give, note, faulty, Log.append]

theorem next_before_malformed {first : Fault} {others : List Fault}
    (h : Segment.read? (text ++ rest) = some ⟨text, .malformed first others⟩) :
    (s.before p (text ++ rest)).next =
      ((s.note ((first :: others).map (·.diagnose s.source p text))).before
        (p.after text) rest).next.faulty := by
  rw [before, segments_of_read? h]
  exact s.next_precededBy ..

/-! ## What a whole request does -/

theorem faulty_give_note {found : List Diagnostic} (hfound : found ≠ []) (r : Reading)
    (text : List Char) :
    (((s.note found).give r).before p text).faulty =
      (s.give { r with diagnostics := found ++ r.diagnostics }).before p text := by
  simp [before, give, note, faulty, Log.append, hfound]

/-- A request goes in one of the ways described, and leaves the stream before the text that is
left, with the reports recorded and the token given. -/
theorem exists_request (text : List Char) :
    ∃ (done left : List Char) (reports : List (List Diagnostic)) (t : Token),
      text = done ++ left ∧ Request s.source p done left reports t ∧
      (s.before p text).next = (s.give ⟨reports.flatten, t⟩).before (p.after done) left := by
  have hsegmented := segmented_segments text
  generalize segments text = gs at hsegmented
  induction hsegmented generalizing s p with
  | nil => exact ⟨[], [], [], _, rfl, .finish, s.next_before_nil p⟩
  | @cons text rest g gs hread fronts _ ih =>
      obtain ⟨here, content⟩ := g
      obtain rfl : text = here ++ rest := fronts.split
      cases content with
      | gap =>
          obtain ⟨done, left, reports, t, rfl, hrequest, hnext⟩ := ih s (p.after here)
          refine ⟨here ++ done, left, reports, t, (List.append_assoc ..).symm,
            .gap fronts.described hrequest, ?_⟩
          rw [s.before_gap p hread, hnext, Point.after_append]
      | word l =>
          obtain ⟨hword, rfl⟩ : l.WellFormed ∧ here = l.written := fronts.described
          exact ⟨l.written, rest, [], _, rfl, .word hword, s.next_before_word p hread⟩
      | malformed first others =>
          obtain ⟨done, left, reports, t, rfl, hrequest, hnext⟩ := ih (s.note _) (p.after here)
          refine ⟨here ++ done, left, _ :: reports, t, (List.append_assoc ..).symm,
            .failure hread hrequest, ?_⟩
          rw [s.next_before_malformed p hread, hnext, Point.after_append]
          exact s.faulty_give_note _ (List.cons_ne_nil _ _) ..

end TokenStream

end MiniJava.Lexical
