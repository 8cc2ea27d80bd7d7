import MiniJava.Lexical.TokenStream
import MiniJava.Proofs.Lexical.Segments
import Mathlib.Data.List.Forall2
import Mathlib.Data.List.Induction
/-!
# The scan of a source

Asking for tokens again and again yields the words of a source in order, each with the
place where it stands, and then the end of the source for ever.  Nothing of the text is
lost: if nothing is reported, only blanks and comments stand between the words.
-/

namespace MiniJava.Lexical

open Text

/-! ## Places and stretches of a text -/

structure Span where
  start : Nat
  stop : Nat

def Span.slice (s : Span) (text : List Char) : List Char :=
  (text.drop s.start).take (s.stop - s.start)

def lineAt (text : List Char) (n : Nat) : Nat := 1 + (text.take n).count '\n'

def columnAt (text : List Char) (n : Nat) : Nat :=
  1 + ((text.take n).reverse.takeWhile (· != '\n')).length

def placeAt (source : String) (text : List Char) (n : Nat) : Location :=
  ⟨⟨lineAt text n, columnAt text n⟩, source⟩

theorem origin_after (text : List Char) :
    Point.origin.after text =
      ⟨1 + text.count '\n', 1 + (text.reverse.takeWhile (· != '\n')).length⟩ := by
  induction text using List.reverseRecOn with
  | nil => rfl
  | append_singleton text c ih =>
      rw [Point.after_append, ih, Point.after_cons, Point.after_nil, Point.step]
      by_cases hc : c = '\n'
      · simp [hc, Nat.add_assoc]
      · simp [hc, Nat.add_comm 1]

theorem placeAt_eq (source : String) (done rest : List Char) :
    placeAt source (done ++ rest) done.length = ⟨Point.origin.after done, source⟩ := by
  rw [placeAt, lineAt, columnAt, List.take_left, origin_after]

/-! ## Layout -/

/-- Blanks, line comments with the newlines that end them, and closed block comments. -/
inductive Layout : List Char → Prop
  | nil : Layout []
  | blank {text : List Char} {c : Char} (before : Layout text) (h : isBlank c = true) :
      Layout (text ++ [c])
  | line {text body : List Char} (before : Layout text) (h : '\n' ∉ body) :
      Layout (text ++ '/' :: '/' :: (body ++ ['\n']))
  | block {text body : List Char} (before : Layout text) (h : ¬ ['*', '/'] <:+: body) :
      Layout (text ++ '/' :: '*' :: (body ++ ['*', '/']))

/-- Layout, possibly with a line comment after it that no newline ends. -/
def OpenLayout (text : List Char) : Prop :=
  Layout text ∨ ∃ before body, Layout before ∧ '\n' ∉ body ∧ text = before ++ '/' :: '/' :: body

/-- What stands before, between and after some stretches of a text, from a position on. -/
def outside (text : List Char) : Nat → List Span → List (List Char)
  | n, [] => [text.drop n]
  | n, s :: spans => Span.slice ⟨n, s.start⟩ text :: outside text s.stop spans

def AllLayout : List (List Char) → Prop
  | [] => True
  | [text] => OpenLayout text
  | text :: texts => Layout text ∧ AllLayout texts

/-! ## Words and their places -/

/-- A token stands at a stretch of a source: the stretch is its lexeme as written, and the
token carries the place of its start. -/
structure StandsAt (source : String) (text : List Char) (t : Token) (s : Span) : Prop where
  nonempty : s.start < s.stop
  within : s.stop ≤ text.length
  written : s.slice text = t.written
  placed : t.location = placeAt source text s.start
  notEnd : t.isEndOfFile = false

def wordSpans : Nat → List Segment → List Span
  | _, [] => []
  | n, g :: gs =>
    match g.content with
    | .word _ => ⟨n, n + g.width⟩ :: wordSpans (n + g.width) gs
    | _ => wordSpans (n + g.width) gs

theorem le_start_of_mem_wordSpans {n : Nat} {gs : List Segment} {s : Span}
    (h : s ∈ wordSpans n gs) : n ≤ s.start := by
  induction gs generalizing n with
  | nil => simp [wordSpans] at h
  | cons g gs ih =>
      unfold wordSpans at h
      split at h
      · rcases List.mem_cons.1 h with rfl | h
        · exact Nat.le_refl _
        · exact Nat.le_trans (Nat.le_add_right _ _) (ih h)
      · exact Nat.le_trans (Nat.le_add_right _ _) (ih h)

theorem wordSpans_pairwise (n : Nat) (gs : List Segment) :
    (wordSpans n gs).Pairwise (fun s s' => s.stop ≤ s'.start) := by
  induction gs generalizing n with
  | nil => exact .nil
  | cons g gs ih =>
      unfold wordSpans
      split
      · exact .cons (fun s hs => le_start_of_mem_wordSpans hs) (ih _)
      · exact ih _

def Segment.tokens (source : String) (p : Point) (g : Segment) : List Token :=
  match g.content with
  | .word lexeme => [⟨lexeme, ⟨p, source⟩⟩]
  | _ => []

def Segment.diagnostics (source : String) (p : Point) (g : Segment) : List Diagnostic :=
  match g.content with
  | .malformed first others => (first :: others).map (·.diagnose source p g.text)
  | _ => []

namespace Readings

@[simp] theorem tokens_precededBy (found : List Diagnostic) (rs : Readings) :
    (rs.precededBy found).tokens = rs.tokens := by
  unfold precededBy tokens
  split
  · next h => simp [h]
  · next h => simp [h]

@[simp] theorem ending_token_precededBy (found : List Diagnostic) (rs : Readings) :
    (rs.precededBy found).ending.token = rs.ending.token := by
  unfold precededBy
  split <;> rfl

def diagnostics (rs : Readings) : List Diagnostic :=
  rs.words.flatMap (·.diagnostics) ++ rs.ending.diagnostics

@[simp] theorem diagnostics_precededBy (found : List Diagnostic) (rs : Readings) :
    (rs.precededBy found).diagnostics = found ++ rs.diagnostics := by
  unfold precededBy diagnostics
  split
  · next h => simp [h]
  · next h => simp [h]

theorem ofSegments_cons (source : String) (p : Point) (g : Segment) (gs : List Segment) :
    (ofSegments source p (g :: gs)).tokens =
        g.tokens source p ++ (ofSegments source (p.after g.text) gs).tokens ∧
      (ofSegments source p (g :: gs)).diagnostics =
        g.diagnostics source p ++ (ofSegments source (p.after g.text) gs).diagnostics ∧
      (ofSegments source p (g :: gs)).ending.token =
        (ofSegments source (p.after g.text) gs).ending.token := by
  rw [ofSegments, Segment.tokens, Segment.diagnostics]
  cases g.content with
  | gap => exact ⟨rfl, rfl, rfl⟩
  | word lexeme => exact ⟨rfl, rfl, rfl⟩
  | malformed first others =>
      dsimp only
      rw [tokens_precededBy, diagnostics_precededBy, ending_token_precededBy]
      exact ⟨rfl, rfl, rfl⟩

end Readings

private theorem slice_append (done text rest : List Char) :
    Span.slice ⟨done.length, done.length + text.length⟩ (done ++ (text ++ rest)) = text := by
  rw [Span.slice, List.drop_left, Nat.add_sub_cancel_left, List.take_left]

/-- The words of the segments that are left stand where they should. -/
theorem Segmented.standsAt {text : List Char} {gs : List Segment} (h : Segmented text gs)
    (source : String) (done : List Char) :
    List.Forall₂ (StandsAt source (done ++ text))
      (Readings.ofSegments source (Point.origin.after done) gs).tokens
      (wordSpans done.length gs) := by
  induction h generalizing done with
  | nil => exact .nil
  | @cons text rest g gs _ fronts _ ih =>
      have hlater := ih (done ++ g.text)
      rw [List.append_assoc, ← fronts.split, Point.after_append, List.length_append] at hlater
      unfold Readings.ofSegments wordSpans
      cases hc : g.content with
      | gap => exact hlater
      | malformed first others =>
          dsimp only
          rw [Readings.tokens_precededBy]
          exact hlater
      | word lexeme =>
          have hword := fronts.described
          rw [hc] at hword
          obtain ⟨hformed, htext⟩ := hword
          refine .cons ?_ hlater
          have hpos := List.length_pos_iff.2 fronts.nonempty
          have hsplit := fronts.split
          exact {
            nonempty := by
              show done.length < done.length + g.width
              rw [Segment.width]; omega
            within := by
              show done.length + g.width ≤ _
              rw [Segment.width, hsplit, List.length_append, List.length_append]; omega
            written := by
              rw [hsplit, Segment.width, slice_append]
              exact htext
            placed := (placeAt_eq source done text).symm
            notEnd := by simpa [Token.isEndOfFile] using hformed.kind_ne_endOfFile }

theorem Segmented.ending_token {text : List Char} {gs : List Segment} (h : Segmented text gs)
    (source : String) (done : List Char) :
    (Readings.ofSegments source (Point.origin.after done) gs).ending.token =
      .endOfFile ⟨Point.origin.after (done ++ text), source⟩ := by
  induction h generalizing done with
  | nil => simp [Readings.ofSegments]
  | @cons text rest g gs _ fronts _ ih =>
      have hlater := ih (done ++ g.text)
      rw [List.append_assoc, ← fronts.split, Point.after_append] at hlater
      unfold Readings.ofSegments
      cases hc : g.content with
      | gap => exact hlater
      | word lexeme => exact hlater
      | malformed first others =>
          dsimp only
          rw [Readings.ending_token_precededBy]
          exact hlater

theorem content_of_diagnostics_nil {source : String} {p : Point} {gs : List Segment}
    (h : (Readings.ofSegments source p gs).diagnostics = []) :
    ∀ g ∈ gs, g.content = .gap ∨ ∃ lexeme, g.content = .word lexeme := by
  induction gs generalizing p with
  | nil => simp
  | cons g gs ih =>
      unfold Readings.ofSegments at h
      rw [List.forall_mem_cons]
      cases hc : g.content with
      | gap =>
          rw [hc] at h
          exact ⟨.inl rfl, ih h⟩
      | word lexeme =>
          rw [hc] at h
          exact ⟨.inr ⟨lexeme, rfl⟩, ih h⟩
      | malformed first others =>
          rw [hc] at h
          simp at h

/-- Layout that a text may go on with: a line comment at its end is followed by a newline
or by the end of the source. -/
private def LayoutBefore (rest text : List Char) : Prop :=
  Layout text ∨ OpenLayout text ∧ rest.head?.getD '\n' = '\n'

private theorem LayoutBefore.snoc {text gap rest : List Char}
    (h : LayoutBefore (gap ++ rest) text) (hgap : GapText rest gap) :
    LayoutBefore rest (text ++ gap) := by
  rcases h with h | ⟨hopen, hhead⟩
  · cases hgap with
    | blank hc => exact .inl (.blank h hc)
    | line hbody hr => exact .inr ⟨.inr ⟨text, _, h, hbody, rfl⟩, hr⟩
    | block hbody => exact .inl (.block h hbody)
  · cases hgap with
    | line => exact absurd hhead (by simp)
    | block => exact absurd hhead (by simp)
    | @blank c hc =>
        obtain rfl : c = '\n' := hhead
        left
        rcases hopen with hopen | ⟨before, body, hbefore, hbody, rfl⟩
        · exact .blank hopen hc
        · have hline := Layout.line hbefore hbody
          simpa using hline

/-- A word does not begin with a newline, so no line comment is open before it. -/
private theorem LayoutBefore.layout {text gap : List Char} {g : Segment} {lexeme : Lexeme}
    (h : LayoutBefore text gap) (hread : Segment.read? text = some g)
    (hword : g.content = .word lexeme) (hne : text ≠ []) : Layout gap := by
  rcases h with h | ⟨-, hhead⟩
  · exact h
  · cases text with
    | nil => exact absurd rfl hne
    | cons c rest =>
        obtain rfl : c = '\n' := hhead
        have hgap : Segment.read? ('\n' :: rest) = some ⟨['\n'], .gap⟩ := rfl
        rw [hgap] at hread
        obtain rfl := Option.some.inj hread
        exact absurd hword (by simp)

private theorem allLayout_cons {gap text : List Char} {n : Nat} {spans : List Span}
    (hgap : Layout gap) (h : AllLayout (outside text n spans)) :
    AllLayout (gap :: outside text n spans) := by
  cases spans with
  | nil => exact ⟨hgap, h⟩
  | cons s spans => exact ⟨hgap, h⟩

/-- Without malformed segments, only layout stands outside the words. -/
theorem Segmented.allLayout {text : List Char} {gs : List Segment} (h : Segmented text gs)
    (hclean : ∀ g ∈ gs, g.content = .gap ∨ ∃ lexeme, g.content = .word lexeme)
    (done gap : List Char) (hgap : LayoutBefore text gap) :
    AllLayout (outside (done ++ (gap ++ text)) done.length
      (wordSpans (done.length + gap.length) gs)) := by
  induction h generalizing done gap with
  | nil =>
      show OpenLayout ((done ++ (gap ++ [])).drop done.length)
      rw [List.append_nil, List.drop_left]
      rcases hgap with hgap | ⟨hgap, -⟩
      · exact .inl hgap
      · exact hgap
  | @cons text rest g gs read fronts _ ih =>
      obtain ⟨hg, hgs⟩ := List.forall_mem_cons.1 hclean
      have hsplit := fronts.split
      unfold wordSpans
      rcases hg with hc | ⟨lexeme, hc⟩
      · have htext := fronts.described
        rw [hc] at htext
        rw [hsplit] at hgap
        have hlater := ih hgs done (gap ++ g.text) (hgap.snoc htext)
        rw [List.append_assoc, ← hsplit, List.length_append, ← Nat.add_assoc] at hlater
        rw [hc]
        exact hlater
      · have hne : text ≠ [] := by
          rw [hsplit]
          simp [fronts.nonempty]
        have hlayout := hgap.layout read hc hne
        have hlater := ih hgs (done ++ (gap ++ g.text)) [] (.inl .nil)
        rw [List.nil_append, List.length_nil, Nat.add_zero, List.append_assoc,
          List.append_assoc, ← hsplit, List.length_append, List.length_append,
          ← Nat.add_assoc] at hlater
        have hslice : Span.slice ⟨done.length, done.length + gap.length⟩
            (done ++ (gap ++ text)) = gap := slice_append done gap text
        rw [hc]
        dsimp only
        rw [outside, hslice]
        exact allLayout_cons hlayout hlater

/-! ## Asking for tokens -/

namespace TokenStream

theorem skip_succ (n : Nat) (s : TokenStream) : s.skip (n + 1) = (s.skip n).next := by
  induction n generalizing s with
  | zero => rfl
  | succ n ih => exact ih s.next

theorem skip_add (m n : Nat) (s : TokenStream) : s.skip (m + n) = (s.skip m).skip n := by
  induction m generalizing s with
  | zero => rw [Nat.zero_add]; rfl
  | succ m ih => rw [Nat.succ_add]; exact ih s.next

/-- Having given some of the words, a stream has the others ahead and has recorded the
diagnostics of those it gave. -/
theorem skip_words {s : TokenStream} {given rest : List Reading} (h : s.ahead = given ++ rest) :
    (s.skip given.length).ahead = rest ∧ (s.skip given.length).ending = s.ending ∧
      (s.skip given.length).log.entries = s.log.entries ++ given.flatMap (·.diagnostics) := by
  induction given generalizing s with
  | nil => exact ⟨h, rfl, by simp [skip]⟩
  | cons r given ih =>
      have hnext : s.next = { s.give r with ahead := given ++ rest } := by
        rw [next, h]
        rfl
      obtain ⟨hahead, hending, hlog⟩ := ih (s := s.next) (by rw [hnext])
      refine ⟨hahead, ?_, ?_⟩
      · show (s.next.skip given.length).ending = s.ending
        rw [hending, hnext]
        rfl
      · show (s.next.skip given.length).log.entries = _
        rw [hlog, hnext]
        simp [give]

theorem current_skip_word {s : TokenStream} {i : Nat} (h : i < s.ahead.length) :
    (s.skip (i + 1)).current = s.ahead[i].token := by
  have hsplit : s.ahead = s.ahead.take i ++ s.ahead[i] :: s.ahead.drop (i + 1) := by
    rw [List.getElem_cons_drop, List.take_append_drop]
  have hlen : (s.ahead.take i).length = i := by
    rw [List.length_take]
    omega
  obtain ⟨hahead, -, -⟩ := skip_words hsplit
  rw [hlen] at hahead
  rw [skip_succ, next, hahead]
  rfl

structure Ended (s : TokenStream) : Prop where
  ahead : s.ahead = []
  ending : s.ending.diagnostics = []
  current : s.current = s.ending.token

theorem Ended.next {s : TokenStream} (h : s.Ended) :
    s.next.Ended ∧ s.next.current = s.current ∧ s.next.log = s.log ∧ s.next.hadFault = false := by
  have hnext : s.next = { s.give s.ending with ending := { s.ending with diagnostics := [] } } := by
    rw [TokenStream.next, h.ahead]
  rw [hnext]
  refine ⟨⟨h.ahead, rfl, rfl⟩, h.current.symm, ?_, ?_⟩
  · simp [give, h.ending, Log.append]
  · simp [give, h.ending]

theorem ended_drain (s : TokenStream) : s.drain.Ended := by
  obtain ⟨hahead, -, -⟩ := skip_words (List.append_nil s.ahead).symm
  rw [drain, skip_succ, next, hahead]
  exact ⟨hahead, rfl, rfl⟩

theorem drain_current (s : TokenStream) : s.drain.current = s.ending.token := by
  obtain ⟨hahead, hending, -⟩ := skip_words (List.append_nil s.ahead).symm
  rw [drain, skip_succ, next, hahead]
  exact congrArg Reading.token hending

theorem drain_log (s : TokenStream) :
    s.drain.log.entries =
      s.log.entries ++ (s.ahead.flatMap (·.diagnostics) ++ s.ending.diagnostics) := by
  obtain ⟨hahead, hending, hlog⟩ := skip_words (List.append_nil s.ahead).symm
  rw [drain, skip_succ, next, hahead]
  simp [give, hlog, hending]

theorem Ended.skip {s : TokenStream} (h : s.Ended) (n : Nat) : (s.skip n).Ended := by
  induction n generalizing s with
  | zero => exact h
  | succ n ih => exact ih h.next.1

end TokenStream

/-- The words of a source stand at stretches of its text, one after another; with nothing
reported only layout stands outside them.  After the words, every request yields the end of
the source, and requests after the first one of these record nothing. -/
theorem scan_lossless (source text : String) :
    ∃ spans : List Span,
      let cs := text.toList
      let scanned (n : Nat) := (TokenStream.ofText source text).skip n
      spans.Pairwise (fun s s' => s.stop ≤ s'.start) ∧
      (∀ (i : Nat) (h : i < spans.length),
        StandsAt source cs (scanned (i + 1)).current spans[i]) ∧
      ((scanned (spans.length + 1)).log.entries = [] → AllLayout (outside cs 0 spans)) ∧
      (scanned (spans.length + 1)).current = .endOfFile (placeAt source cs cs.length) ∧
      ∀ n, spans.length < n →
        (scanned (n + 1)).current = (scanned n).current ∧
        (scanned (n + 1)).log = (scanned n).log ∧
        (scanned (n + 1)).hadFault = false := by
  have hseg := segmented_segments text.toList
  let stream := TokenStream.ofText source text
  have hstands : List.Forall₂ (StandsAt source text.toList) (stream.ahead.map (·.token))
      (wordSpans 0 (segments text.toList)) := hseg.standsAt source []
  have hlen : stream.ahead.length = (wordSpans 0 (segments text.toList)).length := by
    rw [← hstands.length_eq, List.length_map]
  have hdrain : stream.drain = stream.skip ((wordSpans 0 (segments text.toList)).length + 1) := by
    rw [TokenStream.drain, hlen]
  refine ⟨wordSpans 0 (segments text.toList), wordSpans_pairwise 0 _, ?_, ?_, ?_, ?_⟩
  · intro i hi
    have hi' : i < stream.ahead.length := hlen ▸ hi
    show StandsAt source text.toList (stream.skip (i + 1)).current _
    rw [TokenStream.current_skip_word hi']
    have hword := hstands.get (by rwa [List.length_map]) hi
    simpa using hword
  · intro hlog
    have hnone : (Readings.ofText source text.toList).diagnostics = [] := by
      have hentries := stream.drain_log
      rw [hdrain] at hentries
      exact (List.append_eq_nil_iff.1 (hentries.symm.trans hlog)).2
    have hclean := content_of_diagnostics_nil hnone
    exact hseg.allLayout hclean [] [] (.inl .nil)
  · show (stream.skip _).current = _
    rw [← hdrain, stream.drain_current]
    have hplace := placeAt_eq source text.toList []
    rw [List.append_nil] at hplace
    rw [hplace]
    exact hseg.ending_token source []
  · intro n hn
    have hended : (stream.skip n).Ended := by
      obtain ⟨m, rfl⟩ := Nat.exists_eq_add_of_lt hn
      rw [Nat.add_right_comm, TokenStream.skip_add, ← hdrain]
      exact stream.ended_drain.skip m
    have hnext := hended.next.2
    rw [← TokenStream.skip_succ] at hnext
    exact hnext

end MiniJava.Lexical
