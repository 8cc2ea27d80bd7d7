import MiniJava.Proofs.Lexical.Boundary
import MiniJava.Proofs.Lexical.Scan
/-!
# Scanning what was written

Words written one after another, with blanks or comments between neighbours, are scanned as
the same words, and nothing is reported.
-/

namespace MiniJava.Lexical

open Text

/-! ## Segments at the front of a text -/

theorem segments_append {g : Segment} {rest : List Char} (hne : g.text ≠ [])
    (h : Segment.read? (g.text ++ rest) = some g) :
    segments (g.text ++ rest) = g :: segments rest := by
  have hpos : 0 < g.width := List.length_pos_iff.2 hne
  rw [segments, chunks_of_some (List.append_ne_nil_of_left_ne_nil hne _) h hpos, Segment.width,
    List.drop_left]
  rfl

theorem segments_word {text rest : List Char} {l : Lexeme}
    (h : Segment.read? text = some ⟨l.written, .word l⟩) (hrest : Parted rest) :
    segments (l.written ++ rest) = ⟨l.written, .word l⟩ :: segments rest := by
  obtain ⟨_, hfronts⟩ := Segment.read?_fronts h
  exact segments_append hfronts.nonempty (Segment.read?_append hrest h)

/-! ## Layout -/

def Segment.gap (text : List Char) : Segment := ⟨text, .gap⟩

namespace Gap

theorem throughClose?_append {body : List Char} (h : ¬ ['*', '/'] <:+: body)
    (rest : List Char) :
    throughClose? (body ++ '*' :: '/' :: rest) = some (body ++ ['*', '/']) := by
  induction body with
  | nil => rfl
  | cons c body ih =>
      rw [List.infix_cons_iff, not_or] at h
      rw [List.cons_append, throughClose?, ih h.2]
      · rfl
      · rintro more rfl hbody
        refine h.1 ((List.cons_prefix_cons).2 ⟨rfl, ?_⟩)
        cases body with
        | nil => exact absurd (List.cons.inj hbody).1 (by decide)
        | cons d body =>
            obtain ⟨rfl, -⟩ := List.cons.inj hbody
            exact List.prefix_append ['/'] body

theorem segments_append {text rest : List Char} (hne : text ≠ [])
    (h : read? (text ++ rest) = some (.gap text)) :
    segments (text ++ rest) = .gap text :: segments rest := by
  refine Lexical.segments_append (g := .gap text) hne ?_
  obtain ⟨c, more, rfl⟩ := List.exists_cons_of_ne_nil hne
  show (read? (c :: more ++ rest)).or _ = _
  rw [h]
  rfl

theorem segments_blank {c : Char} (h : isBlank c = true) (rest : List Char) :
    segments (c :: rest) = .gap [c] :: segments rest := by
  have hslash : c ≠ '/' := by
    rintro rfl
    exact absurd h (by decide)
  rw [← List.singleton_append]
  refine segments_append (List.cons_ne_nil _ _) ?_
  unfold read?
  split
  · next heq => exact absurd (List.cons.inj heq).1 hslash
  · next heq => exact absurd (List.cons.inj heq).1 hslash
  · next heq =>
    obtain ⟨rfl, -⟩ := List.cons.inj heq
    exact if_pos h
  · next heq => exact absurd heq (by simp)

theorem segments_line {body : List Char} (h : '\n' ∉ body) (rest : List Char) :
    segments ('/' :: '/' :: (body ++ '\n' :: rest)) =
      .gap ('/' :: '/' :: body) :: segments ('\n' :: rest) := by
  have hrun : (body ++ '\n' :: rest).takeWhile (· != '\n') = body := by
    refine takeWhile_append_of_front (fun c hc => ?_) (by simp)
    exact bne_iff_ne.2 fun heq => h (heq ▸ hc)
  have hsplit : '/' :: '/' :: (body ++ '\n' :: rest) =
      '/' :: '/' :: body ++ '\n' :: rest := rfl
  rw [hsplit]
  refine segments_append (List.cons_ne_nil _ _) ?_
  show some (lineComment (body ++ '\n' :: rest)) = _
  rw [lineComment, hrun]
  rfl

theorem segments_block {body : List Char} (h : ¬ ['*', '/'] <:+: body) (rest : List Char) :
    segments ('/' :: '*' :: (body ++ '*' :: '/' :: rest)) =
      .gap ('/' :: '*' :: (body ++ ['*', '/'])) :: segments rest := by
  have hsplit : '/' :: '*' :: (body ++ '*' :: '/' :: rest) =
      '/' :: '*' :: (body ++ ['*', '/']) ++ rest := by simp
  rw [hsplit]
  refine segments_append (List.cons_ne_nil _ _) ?_
  rw [← hsplit]
  show some (blockComment (body ++ '*' :: '/' :: rest)) = _
  rw [blockComment, throughClose?_append h]
  rfl

end Gap

namespace Layout

variable {sep : List Char}

/-- Layout is cut into gaps whatever follows it. -/
theorem segments_append (h : Layout sep) (rest : List Char) :
    ∃ gaps : List (List Char), segments (sep ++ rest) = gaps.map .gap ++ segments rest := by
  induction h generalizing rest with
  | nil => exact ⟨[], rfl⟩
  | @blank text c _ hc ih =>
      obtain ⟨gaps, hgaps⟩ := ih (c :: rest)
      refine ⟨gaps ++ [[c]], ?_⟩
      rw [List.append_assoc, List.singleton_append, hgaps, Gap.segments_blank hc]
      simp
  | @line text body _ hbody ih =>
      obtain ⟨gaps, hgaps⟩ := ih ('/' :: '/' :: (body ++ '\n' :: rest))
      refine ⟨gaps ++ ['/' :: '/' :: body, ['\n']], ?_⟩
      have hassoc : text ++ '/' :: '/' :: (body ++ ['\n']) ++ rest =
          text ++ '/' :: '/' :: (body ++ '\n' :: rest) := by simp
      rw [hassoc, hgaps, Gap.segments_line hbody, Gap.segments_blank (by decide)]
      simp
  | @block text body _ hbody ih =>
      obtain ⟨gaps, hgaps⟩ := ih ('/' :: '*' :: (body ++ '*' :: '/' :: rest))
      refine ⟨gaps ++ ['/' :: '*' :: (body ++ ['*', '/'])], ?_⟩
      have hassoc : text ++ '/' :: '*' :: (body ++ ['*', '/']) ++ rest =
          text ++ '/' :: '*' :: (body ++ '*' :: '/' :: rest) := by simp
      rw [hassoc, hgaps, Gap.segments_block hbody]
      simp

theorem head?_partsWords (h : Layout sep) : ∀ c ∈ sep.head?, partsWords c = true := by
  have hsnoc : ∀ {text more : List Char}, (∀ c ∈ text.head?, partsWords c = true) →
      (∀ c ∈ more.head?, partsWords c = true) →
        ∀ c ∈ (text ++ more).head?, partsWords c = true := by
    intro text more htext hmore
    cases text with
    | nil => exact hmore
    | cons d text => exact htext
  have hslash : ∀ more, ∀ c ∈ ('/' :: more).head?, partsWords c = true := by
    rintro more c hc
    obtain rfl := Option.some.inj hc
    decide
  induction h with
  | nil => simp
  | @blank text c _ hc ih =>
      refine hsnoc ih fun d hd => ?_
      obtain rfl := Option.some.inj hd
      exact Bool.or_eq_true_iff.2 (.inl hc)
  | line _ _ ih => exact hsnoc ih (hslash _)
  | block _ _ ih => exact hsnoc ih (hslash _)

/-- Layout parts the words around it. -/
theorem parted (h : Layout sep) (hne : sep ≠ []) (rest : List Char) : Parted (sep ++ rest) := by
  have hfront := h.head?_partsWords
  cases sep with
  | nil => exact absurd rfl hne
  | cons c more => exact hfront

end Layout

/-! ## Words with layout between them -/

/-- Words as they are written, one after another, with layout between neighbours. -/
inductive Spaced : List Lexeme → List Char → Prop
  | nil : Spaced [] []
  | one (l : Lexeme) : Spaced [l] l.written
  | cons {l l' : Lexeme} {ls : List Lexeme} {sep text : List Char} (h : Layout sep)
      (hne : sep ≠ []) (later : Spaced (l' :: ls) text) :
      Spaced (l :: l' :: ls) (l.written ++ (sep ++ text))

def Legible (l : Lexeme) : Prop := ∃ text, Segment.read? text = some ⟨l.written, .word l⟩

namespace Readings

theorem ofSegments_gaps (source : String) (p : Point) (gaps : List (List Char))
    (gs : List Segment) :
    ofSegments source p (gaps.map .gap ++ gs) = ofSegments source (p.after gaps.flatten) gs := by
  induction gaps generalizing p with
  | nil => rfl
  | cons gap gaps ih =>
      rw [List.flatten_cons, Point.after_append, ← ih]
      rfl

def Clean (rs : Readings) (ls : List Lexeme) : Prop :=
  rs.tokens.map (·.toLexeme) = ls ∧ rs.diagnostics = []

theorem clean_word {source : String} {p : Point} {w : List Char} {l : Lexeme} {ls : List Lexeme}
    {gs : List Segment} (h : (ofSegments source (p.after w) gs).Clean ls) :
    (ofSegments source p (⟨w, .word l⟩ :: gs)).Clean (l :: ls) :=
  ⟨congrArg (l :: ·) h.1, h.2⟩

end Readings

/-- Words with layout between them are read as these words. -/
theorem Spaced.clean {ls : List Lexeme} {text : List Char} (h : Spaced ls text)
    (hls : ∀ l ∈ ls, Legible l) (source : String) (p : Point) :
    (Readings.ofSegments source p (segments text)).Clean ls := by
  induction h generalizing p with
  | nil => exact ⟨rfl, rfl⟩
  | one l =>
      obtain ⟨_, hread⟩ := hls l (List.mem_singleton_self l)
      have hnil : Parted [] := by simp [Parted]
      have hsegments := segments_word hread hnil
      rw [List.append_nil] at hsegments
      rw [hsegments]
      exact Readings.clean_word ⟨rfl, rfl⟩
  | @cons l l' ls sep text hsep hne _ ih =>
      obtain ⟨⟨_, hread⟩, hlater⟩ := List.forall_mem_cons.1 hls
      obtain ⟨gaps, hgaps⟩ := hsep.segments_append text
      rw [segments_word hread (hsep.parted hne text), hgaps]
      refine Readings.clean_word ?_
      rw [Readings.ofSegments_gaps]
      exact ih hlater _

/-! ## Tokens that can be met -/

/-- A token that some source yields when it is asked for tokens, before its end. -/
def Emitted (t : Token) : Prop :=
  ∃ (source text : String) (n : Nat),
    ((TokenStream.ofText source text).skip (n + 1)).current = t ∧ t.isEndOfFile = false

theorem Segmented.legible {text : List Char} {gs : List Segment} (h : Segmented text gs)
    (source : String) (p : Point) :
    ∀ t ∈ (Readings.ofSegments source p gs).tokens, Legible t.toLexeme := by
  induction h generalizing p with
  | nil => exact List.forall_mem_nil _
  | @cons text rest g gs hread fronts _ ih =>
      unfold Readings.ofSegments
      cases hc : g.content with
      | gap => exact ih _
      | malformed first others =>
          dsimp only
          rw [Readings.tokens_precededBy]
          exact ih _
      | word lexeme =>
          have hword := fronts.described
          rw [hc] at hword
          have hg : g = ⟨lexeme.written, .word lexeme⟩ := by rw [← hword.2, ← hc]
          rw [hg] at hread
          exact List.forall_mem_cons.2 ⟨⟨text, hread⟩, ih _⟩

theorem Legible.wellFormed {l : Lexeme} (h : Legible l) : l.WellFormed := by
  obtain ⟨_, hread⟩ := h
  obtain ⟨_, hfronts⟩ := Segment.read?_fronts hread
  exact hfronts.described.1

namespace TokenStream

theorem Ended.skip_current {s : TokenStream} (h : s.Ended) (n : Nat) :
    (s.skip n).current = s.current := by
  induction n generalizing s with
  | zero => rfl
  | succ n ih => exact (ih h.next.1).trans h.next.2.1

/-- A request yields the next word, or the end when there are no more. -/
theorem current_skip (s : TokenStream) (n : Nat) :
    (s.skip (n + 1)).current = s.remaining[n]?.getD s.ending.token := by
  by_cases hn : n < s.ahead.length
  · rw [current_skip_word hn, remaining, List.getElem?_map, List.getElem?_eq_getElem hn]
    rfl
  · obtain ⟨m, rfl⟩ := Nat.exists_eq_add_of_le (Nat.not_lt.1 hn)
    have hnone : s.remaining[s.ahead.length + m]? = none := by
      rw [List.getElem?_eq_none_iff, remaining, List.length_map]
      omega
    rw [hnone, Nat.add_right_comm, skip_add]
    exact (s.ended_drain.skip_current m).trans s.drain_current

theorem isEndOfFile_current_skip (source text : String) (n : Nat) :
    let s := TokenStream.ofText source text
    (s.skip (n + 1)).current.isEndOfFile = decide (s.remaining.length ≤ n) := by
  have hseg := segmented_segments text.toList
  intro s
  rw [current_skip]
  by_cases hn : n < s.remaining.length
  · have hstands := hseg.standsAt source []
    have hword := hstands.get hn (hstands.length_eq ▸ hn)
    rw [List.getElem?_eq_getElem hn, decide_eq_false (Nat.not_le.2 hn)]
    exact hword.notEnd
  · have hending := hseg.ending_token source []
    rw [List.getElem?_eq_none_iff.2 (Nat.not_lt.1 hn), decide_eq_true (Nat.not_lt.1 hn)]
    exact congrArg Token.isEndOfFile hending

end TokenStream

theorem Emitted.legible {t : Token} (h : Emitted t) : Legible t.toLexeme := by
  obtain ⟨source, text, n, rfl, hend⟩ := h
  rw [TokenStream.isEndOfFile_current_skip, decide_eq_false_iff_not, Nat.not_le] at hend
  rw [TokenStream.current_skip, List.getElem?_eq_getElem hend, Option.getD_some]
  exact (segmented_segments text.toList).legible source .origin _ (List.getElem_mem hend)

/-- Tokens that sources can yield, written one after another with blanks or comments between
neighbours, are yielded again, each with its classification and value; then comes the end, and
nothing is reported. -/
theorem scan_spaced {ts : List Token} {text : String} (hts : ∀ t ∈ ts, Emitted t)
    (htext : Spaced (ts.map (·.toLexeme)) text.toList) (source : String) :
    let scanned (n : Nat) := (TokenStream.ofText source text).skip n
    (∀ (i : Nat) (h : i < ts.length), (scanned (i + 1)).current.toLexeme = ts[i].toLexeme) ∧
      (scanned (ts.length + 1)).current = .endOfFile (placeAt source text.toList text.toList.length) ∧
      (scanned (ts.length + 1)).log.entries = [] := by
  let stream := TokenStream.ofText source text
  have hlegible : ∀ l ∈ ts.map (·.toLexeme), Legible l := by
    rw [List.forall_mem_map]
    exact fun t ht => (hts t ht).legible
  obtain ⟨hlexemes, hnone⟩ := htext.clean hlegible source .origin
  have hwords : stream.ahead.map (·.token.toLexeme) = ts.map (·.toLexeme) := by
    rw [← hlexemes, Readings.tokens, List.map_map]
    rfl
  have hlen : stream.ahead.length = ts.length := by
    have hlengths := congrArg List.length hwords
    rwa [List.length_map, List.length_map] at hlengths
  have hdrain : stream.skip (ts.length + 1) = stream.drain := by
    rw [TokenStream.drain, hlen]
  refine ⟨fun i hi => ?_, ?_, ?_⟩
  · have hi' : i < stream.ahead.length := hlen ▸ hi
    show (stream.skip (i + 1)).current.toLexeme = _
    rw [TokenStream.current_skip_word hi']
    have hget := congrArg (·[i]?) hwords
    simpa [hi, hi'] using hget
  · show (stream.skip _).current = _
    rw [hdrain, stream.drain_current]
    have hplace := placeAt_eq source text.toList []
    rw [List.append_nil] at hplace
    rw [hplace]
    exact (segmented_segments text.toList).ending_token source []
  · show (stream.skip _).log.entries = _
    rw [hdrain, stream.drain_log]
    exact hnone

/-- A number, a symbol and the print keyword, with comments in place of no space at all. -/
theorem scan_spaced_print :
    let given (n : Nat) := ((TokenStream.ofText "Tight" "1.5&&System.out.println").skip n).current
    let ts := [given 1, given 2, given 3]
    let text := "1.5/***/&&//*/\nSystem.out.println"
    let scanned (n : Nat) := (TokenStream.ofText "Loose" text).skip n
    (∀ t ∈ ts, Emitted t) ∧ Spaced (ts.map (·.toLexeme)) text.toList ∧
      (∀ (i : Nat) (h : i < ts.length), (scanned (i + 1)).current.toLexeme = ts[i].toLexeme) ∧
      (scanned 4).current = .endOfFile (placeAt "Loose" text.toList text.toList.length) ∧
      (scanned 4).log.entries = [] := by
  intro given ts text
  have hts : ∀ t ∈ ts, Emitted t := by
    have hgiven : ∀ n, (given (n + 1)).isEndOfFile = false → Emitted (given (n + 1)) :=
      fun n hend => ⟨_, _, n, rfl, hend⟩
    simp only [ts, List.forall_mem_cons, List.not_mem_nil, false_implies, implies_true, and_true]
    exact ⟨hgiven 0 (by decide +kernel), hgiven 1 (by decide +kernel), hgiven 2 (by decide +kernel)⟩
  have htext : Spaced (ts.map (·.toLexeme)) text.toList := by
    have hwritten : text.toList = (given 1).written ++ ("/***/".toList ++ ((given 2).written ++
        ("//*/\n".toList ++ (given 3).written))) := by decide +kernel
    rw [hwritten]
    have hblock : Layout ([] ++ '/' :: '*' :: (['*'] ++ ['*', '/'])) := .block .nil (by decide)
    have hline : Layout ([] ++ '/' :: '/' :: (['*', '/'] ++ ['\n'])) := .line .nil (by decide)
    exact .cons hblock (by decide) (.cons hline (by decide) (.one _))
  exact ⟨hts, htext, scan_spaced hts htext "Loose"⟩

end MiniJava.Lexical
