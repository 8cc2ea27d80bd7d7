import MiniJava.Lexical.Segmentation
import MiniJava.Proofs.Lexical.Rounds
import MiniJava.Proofs.Token.WellFormed
import Mathlib.Data.List.TakeWhile
/-!
# What the recognisers read

Each recogniser reads a stretch at the front of a text.  A gap is a blank or a comment,
and the text of a word is its lexeme as it is written.  The segments of a text, joined,
are the text.
-/

namespace MiniJava

open Lexical (Quote)

/-- The source text of a lexeme: characters and strings stand between their marks. -/
def Lexeme.written (l : Lexeme) : List Char :=
  match l.kind with
  | .charLiteral => Quote.char.mark :: (l.text.toList ++ [Quote.char.mark])
  | .stringLiteral => Quote.string.mark :: (l.text.toList ++ [Quote.string.mark])
  | _ => l.text.toList

theorem Lexicon.classify_written (word : String) :
    (classify word).written = word.toList := by
  have htext := classify_text word
  rcases classify_cases word with ⟨-, h⟩ | ⟨x, hx, h⟩
  · rw [h]; rfl
  · have hk := Terminal.lexeme_isReserved hx
    rw [← h] at hk
    unfold Lexeme.written
    split
    · next hc => rw [hc] at hk; exact absurd hk (by decide)
    · next hc => rw [hc] at hk; exact absurd hk (by decide)
    · rw [htext]

namespace Lexical

open Text

/-- The text of a gap, given what follows it: a line comment goes on up to a newline or
the end of the source. -/
inductive GapText (rest : List Char) : List Char → Prop
  | blank {c : Char} (h : isBlank c = true) : GapText rest [c]
  | line {body : List Char} (h : '\n' ∉ body) (hr : rest.head?.getD '\n' = '\n') :
      GapText rest ('/' :: '/' :: body)
  | block {body : List Char} (h : ¬ ['*', '/'] <:+: body) :
      GapText rest ('/' :: '*' :: (body ++ ['*', '/']))

def Content.Describes (rest text : List Char) : Content → Prop
  | .gap => GapText rest text
  | .word lexeme => lexeme.WellFormed ∧ text = lexeme.written
  | .malformed .. => True

structure Segment.Fronts (g : Segment) (text rest : List Char) : Prop where
  split : text = g.text ++ rest
  nonempty : g.text ≠ []
  described : g.content.Describes rest g.text

/-! ## Gaps -/

namespace Gap

theorem throughClose?_eq {text found : List Char} (h : throughClose? text = some found) :
    ∃ body rest, text = found ++ rest ∧ found = body ++ ['*', '/'] ∧
      ¬ ['*', '/'] <:+: body := by
  induction text generalizing found with
  | nil => simp [throughClose?] at h
  | cons c text ih =>
      unfold throughClose? at h
      split at h
      · next rest =>
        obtain rfl : ['*', '/'] = found := by simpa using h
        exact ⟨[], rest, rfl, rfl, by simp⟩
      · next hclose =>
        obtain ⟨tail, htail, rfl⟩ := Option.map_eq_some_iff.1 h
        obtain ⟨body, rest, htext, hfound, hbody⟩ := ih htail
        refine ⟨c :: body, rest, by rw [htext]; rfl, by rw [hfound]; rfl, ?_⟩
        intro hinfix
        rcases List.infix_cons_iff.1 hinfix with hfront | hlater
        · obtain ⟨rfl, hslash⟩ : '*' = c ∧ ['/'] <+: body := by
            simpa [List.cons_prefix_cons] using hfront
          obtain ⟨more, rfl⟩ := hslash
          exact hclose (more ++ ['*', '/'] ++ rest) rfl (by rw [htext, hfound]; simp)
        · exact hbody hlater

theorem blockComment_fronts (rest : List Char) :
    ∃ after, (blockComment rest).Fronts ('/' :: '*' :: rest) after := by
  unfold blockComment
  split
  · next found h =>
    obtain ⟨body, after, hrest, hfound, hbody⟩ := throughClose?_eq h
    refine ⟨after, by rw [hrest]; rfl, by simp, ?_⟩
    rw [hfound]
    exact .block hbody
  · exact ⟨[], by simp, by simp, trivial⟩

theorem lineComment_fronts (rest : List Char) :
    (lineComment rest).Fronts ('/' :: '/' :: rest) (rest.dropWhile (· != '\n')) where
  split := by simp [lineComment, List.takeWhile_append_dropWhile]
  nonempty := by simp [lineComment]
  described := by
    refine .line ?_ ?_
    · intro hmem
      simpa using List.mem_takeWhile_imp hmem
    · cases h : rest.dropWhile (· != '\n') with
      | nil => rfl
      | cons c more =>
          have hc := List.head?_dropWhile_not (· != '\n') rest
          rw [h] at hc
          simpa using hc

theorem read?_fronts {text : List Char} {g : Segment} (h : read? text = some g) :
    ∃ rest, g.Fronts text rest := by
  unfold read? at h
  split at h
  · next rest =>
    obtain rfl := Option.some.inj h
    exact ⟨_, lineComment_fronts rest⟩
  · next rest =>
    obtain rfl := Option.some.inj h
    exact blockComment_fronts rest
  · next c rest _ _ =>
    split at h
    · next hc =>
      obtain rfl := Option.some.inj h
      exact ⟨rest, rfl, by simp, .blank hc⟩
    · exact absurd h (by simp)
  · exact absurd h (by simp)

end Gap

/-! ## Words -/

namespace Word

theorem isWordChar_of_begins {c : Char} (h : begins c = true) : isWordChar c = true := by
  unfold begins at h
  unfold isWordChar Char.isAlphanum
  rcases Bool.or_eq_true _ _ ▸ h with ha | hu
  · rw [ha]; rfl
  · rw [hu, Bool.or_true]

theorem extent_isPrefix (text : List Char) : extent text <+: text := by
  unfold extent
  dsimp only
  split
  · next h =>
    obtain ⟨-, hprint⟩ := h
    have htail : printTail <+: text.drop (text.takeWhile isWordChar).length := by
      rw [continuesPrint, Bool.and_eq_true] at hprint
      exact List.isPrefixOf_iff_prefix.1 hprint.1
    obtain ⟨rest, hrest⟩ := htail
    refine ⟨rest, ?_⟩
    rw [List.append_assoc, hrest]
    exact List.prefix_iff_eq_append.1 (List.takeWhile_prefix isWordChar)
  · exact List.takeWhile_prefix isWordChar

theorem extent_ne_nil {c : Char} {rest : List Char} (h : begins c = true) :
    extent (c :: rest) ≠ [] := by
  have hrun : (c :: rest).takeWhile isWordChar ≠ [] := by
    rw [List.takeWhile_cons_of_pos (isWordChar_of_begins h)]
    simp
  unfold extent
  dsimp only
  split
  · simp [hrun]
  · exact hrun

theorem read_fronts {c : Char} {rest : List Char} (h : begins c = true) :
    ∃ after, (read (c :: rest)).Fronts (c :: rest) after := by
  obtain ⟨after, hafter⟩ := extent_isPrefix (c :: rest)
  have hne : extent (c :: rest) ≠ [] := extent_ne_nil h
  unfold read
  dsimp only
  split
  · exact ⟨after, hafter.symm, hne, trivial⟩
  · refine ⟨after, hafter.symm, hne, .word _, ?_⟩
    rw [Lexicon.classify_written, String.toList_ofList]

end Word

/-! ## Quoted literals -/

namespace Quote

theorem body?_eq {q : Quote} {text body : List Char} (h : q.body? text = some body) :
    ∃ rest, text = body ++ q.mark :: rest := by
  fun_induction body? q text generalizing body with
  | case1 => exact absurd h (by simp)
  | case2 rest =>
      obtain rfl := Option.some.inj h
      exact ⟨rest, rfl⟩
  | case3 => exact absurd h (by simp)
  | case4 _ d rest ih =>
      obtain ⟨tail, htail, rfl⟩ := Option.map_eq_some_iff.1 h
      obtain ⟨after, rfl⟩ := ih htail
      exact ⟨after, rfl⟩
  | case5 c rest _ _ ih =>
      obtain ⟨tail, htail, rfl⟩ := Option.map_eq_some_iff.1 h
      obtain ⟨after, rfl⟩ := ih htail
      exact ⟨after, rfl⟩

theorem content_describes (q : Quote) (rest body : List Char) :
    (q.content body).Describes rest (q.mark :: (body ++ [q.mark])) := by
  unfold content
  split
  · refine ⟨.string _, ?_⟩
    show _ = Quote.string.mark :: ((String.ofList body).toList ++ [Quote.string.mark])
    rw [String.toList_ofList]
  · next c => exact ⟨.char c, by simp [Lexeme.written, Lexeme.literal]⟩
  · trivial

theorem read_fronts (q : Quote) (rest : List Char) :
    ∃ after, (q.read rest).Fronts (q.mark :: rest) after := by
  unfold read
  split
  · next body h =>
    obtain ⟨after, rfl⟩ := body?_eq h
    exact ⟨after, by simp, by simp, content_describes q after body⟩
  · exact ⟨[], by simp, by simp, trivial⟩

end Quote

/-! ## Operators and delimiters -/

namespace Symbol

theorem spelled?_eq {text : List Char} {g : Segment} (h : spelled? text = some g) :
    g = ⟨text, .word (Lexicon.classify (String.ofList text))⟩ := by
  unfold spelled? at h
  dsimp only at h
  split at h
  · exact (Option.some.inj h).symm
  · exact absurd h nofun

private theorem spelled?_fronts {text : List Char} {g : Segment}
    (h : spelled? text = some g) (hne : text ≠ []) (rest : List Char) :
    g.Fronts (text ++ rest) rest := by
  obtain rfl := spelled?_eq h
  refine ⟨rfl, hne, .word _, ?_⟩
  rw [Lexicon.classify_written, String.toList_ofList]

theorem read_cases (c : Char) (rest : List Char) :
    (∃ text, spelled? text = some (read c rest)) ∨
      read c rest = ⟨[c], .malformed (.atStart (.unknownCharacter c)) []⟩ := by
  unfold read
  dsimp only
  cases hfound : Option.or _ _ with
  | none => exact .inr rfl
  | some g =>
      left
      rcases Option.or_eq_some_iff.1 hfound with hpair | ⟨-, hone⟩
      · cases rest with
        | nil => exact absurd hpair nofun
        | cons => exact ⟨_, hpair⟩
      · exact ⟨_, hone⟩

theorem read_fronts (c : Char) (rest : List Char) :
    ∃ after, (read c rest).Fronts (c :: rest) after := by
  unfold read
  dsimp only
  cases hpair : Option.or _ _ with
  | none => exact ⟨rest, by simp, by simp, trivial⟩
  | some g =>
      rcases Option.or_eq_some_iff.1 hpair with hpair | ⟨-, hone⟩
      · cases rest with
        | nil => exact absurd hpair (by simp)
        | cons d rest => exact ⟨rest, spelled?_fronts hpair (by simp) rest⟩
      · exact ⟨rest, spelled?_fronts hone (by simp) rest⟩

end Symbol

/-! ## Numbers -/

theorem chunks_flatMap_isPrefix {α : Type} {read? : List Char → Option α}
    {text : α → List Char} (h : Advances read? text) (s : List Char) :
    (chunks read? (fun a => (text a).length) s).flatMap text <+: s := by
  obtain ⟨left, hrounds⟩ := rounds_chunks h s
  exact ⟨left, hrounds.split.symm⟩

namespace NumeralPart

theorem readExponent_isPrefix (mark : Char) (s : List Char) :
    (readExponent mark s).text <+: mark :: s ∧ (readExponent mark s).text ≠ [] := by
  unfold readExponent
  split <;> refine ⟨?_, by simp [text]⟩ <;>
    simp [text, List.cons_prefix_cons, List.takeWhile_prefix]

theorem read?_isPrefix {radix : Radix} {s : List Char} {part : NumeralPart}
    (h : read? radix s = some part) : part.text <+: s ∧ part.text ≠ [] := by
  unfold read? at h
  split at h
  · exact absurd h (by simp)
  · next c rest =>
    split at h
    · next hdot =>
      split at h
      · obtain rfl := Option.some.inj h
        refine ⟨?_, by simp [text]⟩
        rw [text, hdot]
        exact (List.cons_prefix_cons).2 ⟨rfl, List.takeWhile_prefix _⟩
      · exact absurd h (by simp)
    · split at h
      · obtain rfl := Option.some.inj h
        exact readExponent_isPrefix c rest
      · exact absurd h (by simp)

theorem advances_read? (radix : Radix) : Advances (read? radix) text :=
  fun _ _ => read?_isPrefix

def round (radix : Radix) (s : List Char) : Option (List Char) := (read? radix s).map text

end NumeralPart

namespace Numeral

theorem radixMark_isPrefix (s : List Char) : (radixMark s).2 <+: s := by
  unfold radixMark
  split
  · split
    · simp
    · split <;> simp
  · exact List.nil_prefix

/-- A number is taken off the front of a text: a mark, then its digits one by one, then the parts
that follow, in whatever order they come. -/
theorem rounds_ofText (s : List Char) : let n := ofText s
    ∃ behind left, s = n.mark ++ (n.digits ++ behind) ∧
      Rounds (single n.radix.isDigit) (n.digits ++ behind) (n.digits.map fun c => [c]) behind ∧
      Rounds (NumeralPart.round n.radix) behind (n.parts.map NumeralPart.text) left ∧
      n.glued = left.takeWhile isWordChar := by
  have hmark := radixMark_isPrefix s
  unfold ofText
  dsimp only
  generalize radixMark s = r at hmark
  obtain ⟨radix, mark⟩ := r
  obtain ⟨s₁, rfl⟩ := hmark
  dsimp only
  rw [List.drop_left]
  have hdigits := rounds_single radix.isDigit s₁
  have hsplit : s₁.takeWhile radix.isDigit ++ s₁.dropWhile radix.isDigit = s₁ :=
    List.takeWhile_append_dropWhile
  generalize s₁.takeWhile radix.isDigit = digits at hdigits hsplit
  generalize s₁.dropWhile radix.isDigit = behind at hdigits hsplit
  subst hsplit
  rw [List.drop_left]
  obtain ⟨left, hparts⟩ := rounds_chunks (NumeralPart.advances_read? radix) behind
  refine ⟨behind, left, rfl, hdigits, hparts, ?_⟩
  generalize chunks (NumeralPart.read? radix) (·.text.length) behind = parts at hparts
  rw [hparts.split, List.flatMap_def, List.drop_left]

/-- Behind the number at the front of a text stands what is glued to it, and no further part. -/
theorem exists_rest_ofText (s : List Char) :
    ∃ rest, (ofText s).text ++ rest = s ∧ (ofText s).glued = rest.takeWhile isWordChar ∧
      NumeralPart.read? (ofText s).radix rest = none := by
  obtain ⟨behind, left, hsplit, -, hparts, hglued⟩ := rounds_ofText s
  refine ⟨left, ?_, hglued, Option.map_eq_none_iff.1 hparts.stopped⟩
  have hbehind : (ofText s).parts.flatMap NumeralPart.text ++ left = behind := hparts.split.symm
  rw [Numeral.text, List.append_assoc, List.append_assoc, hbehind, ← hsplit]

theorem ofText_isPrefix (s : List Char) : (ofText s).text ++ (ofText s).glued <+: s := by
  obtain ⟨rest, hrest, hglued, -⟩ := exists_rest_ofText s
  have hfront : (ofText s).text ++ rest.takeWhile isWordChar <+: (ofText s).text ++ rest :=
    (List.prefix_append_right_inj _).2 (List.takeWhile_prefix _)
  rw [hrest] at hfront
  rwa [hglued]

theorem radixMark_cases (s : List Char) :
    (radixMark s).2 ≠ [] ∨ radixMark s = (.decimal, []) := by
  unfold radixMark
  split
  · split
    · exact .inl (by simp)
    · split
      · exact .inl (by simp)
      · exact .inr rfl
  · exact .inr rfl

theorem ofText_text_ne_nil {c : Char} {rest : List Char} (h : c.isDigit = true) :
    (ofText (c :: rest)).text ≠ [] := by
  unfold ofText
  dsimp only [text]
  rcases radixMark_cases (c :: rest) with hmark | hmark
  · simp [hmark]
  · rw [hmark]
    dsimp only
    rw [List.length_nil, List.drop_zero, List.takeWhile_cons_of_pos (Radix.isDigit_decimal h)]
    simp

theorem glued_of_faults_nil {n : Numeral} {after : List Char} (h : n.faults after = []) :
    n.glued = [] := by
  unfold faults at h
  dsimp only at h
  generalize (_ : List Fault) ++ NumeralPart.faults _ _ _ _ _ _ = found at h
  split at h
  · exact absurd h (by simp)
  · next hnot =>
    by_contra hne
    exact hnot ⟨h, hne⟩

theorem value_describes (n : Numeral) (rest : List Char) : n.value.Describes rest n.text := by
  unfold value
  dsimp only
  split
  · split
    · exact ⟨.integer _ _, by simp [Lexeme.written, Lexeme.literal]⟩
    · trivial
  · split
    · trivial
    · split
      · exact ⟨.real _ _, by simp [Lexeme.written, Lexeme.literal]⟩
      · trivial

theorem read_fronts {c : Char} {rest : List Char} (h : c.isDigit = true) :
    ∃ after, (read (c :: rest)).Fronts (c :: rest) after := by
  obtain ⟨after, hafter⟩ := ofText_isPrefix (c :: rest)
  have hne : (ofText (c :: rest)).text ≠ [] := ofText_text_ne_nil h
  unfold read
  dsimp only
  split
  · next hfaults =>
    have hglued := glued_of_faults_nil hfaults
    rw [hglued, List.append_nil] at hafter ⊢
    exact ⟨after, hafter.symm, hne, value_describes _ after⟩
  · exact ⟨after, hafter.symm, by simp [hne], trivial⟩

end Numeral

/-! ## What segments hold -/

/-- A gap, a word of the lexicon, a quoted literal, or text with one thing wrong with all of
it.  Only numbers hold anything else. -/
inductive Content.Plain : Content → Prop
  | gap : Plain .gap
  | word (text : String) : Plain (.word (Lexicon.classify text))
  | char (c : Char) :
      Plain (.word (.literal .charLiteral (String.singleton c) (.int c.toNat)))
  | string (text : String) : Plain (.word (.literal .stringLiteral text (.text text)))
  | malformed (cause : Cause) : Plain (.malformed (.atStart cause) [])

theorem Gap.read?_plain {text : List Char} {g : Segment} (h : Gap.read? text = some g) :
    g.content.Plain := by
  unfold Gap.read? at h
  split at h
  · obtain rfl := Option.some.inj h
    exact .gap
  · obtain rfl := Option.some.inj h
    unfold blockComment
    split
    · exact .gap
    · exact .malformed _
  · split at h
    · obtain rfl := Option.some.inj h
      exact .gap
    · exact absurd h nofun
  · exact absurd h nofun

theorem Word.read_plain (text : List Char) : (Word.read text).content.Plain := by
  unfold Word.read
  dsimp only
  split
  · exact .malformed _
  · exact .word _

theorem Quote.read_plain (q : Quote) (rest : List Char) : (q.read rest).content.Plain := by
  unfold Quote.read
  split
  · unfold Quote.content
    dsimp only
    split
    · exact .string _
    · exact .char _
    · exact .malformed _
  · exact .malformed _

theorem Symbol.read_plain (c : Char) (rest : List Char) : (Symbol.read c rest).content.Plain := by
  rcases Symbol.read_cases c rest with ⟨text, hspelled⟩ | hunknown
  · rw [Symbol.spelled?_eq hspelled]
    exact .word _
  · rw [hunknown]
    exact .malformed _

/-- Where no gap begins, the first character decides which recogniser reads a segment. -/
theorem Segment.read?_cases {c : Char} {rest : List Char} {g : Segment}
    (h : Segment.read? (c :: rest) = some g) :
    Gap.read? (c :: rest) = some g ∨ Gap.read? (c :: rest) = none ∧
      (Word.begins c = true ∧ g = Word.read (c :: rest) ∨
        c.isDigit = true ∧ g = Numeral.read (c :: rest) ∨
        (∃ q : Quote, c = q.mark ∧ g = q.read rest) ∨
        isWordChar c = false ∧ g = Symbol.read c rest) := by
  rcases Option.or_eq_some_iff.1 h with hgap | ⟨hgap, hfirst⟩
  · exact .inl hgap
  refine .inr ⟨hgap, ?_⟩
  obtain rfl := Option.some.inj hfirst
  unfold Segment.ofFirst
  split
  · next hword => exact .inl ⟨hword, rfl⟩
  split
  · next hdigit => exact .inr (.inl ⟨hdigit, rfl⟩)
  split
  · next hmark => exact .inr (.inr (.inl ⟨.char, hmark, rfl⟩))
  split
  · next hmark => exact .inr (.inr (.inl ⟨.string, hmark, rfl⟩))
  · next hword hdigit _ _ =>
    refine .inr (.inr (.inr ⟨?_, rfl⟩))
    simp only [Word.begins, Bool.or_eq_true, not_or] at hword
    simp [isWordChar, Char.isAlphanum, hword, hdigit]

theorem Segment.read?_plain {text : List Char} {g : Segment} (h : Segment.read? text = some g) :
    g.content.Plain ∨ g = Numeral.read text := by
  cases text with
  | nil => exact absurd h nofun
  | cons c rest =>
      rcases Segment.read?_cases h with
        hgap | ⟨-, ⟨-, rfl⟩ | ⟨-, rfl⟩ | ⟨q, -, rfl⟩ | ⟨-, rfl⟩⟩
      · exact .inl (Gap.read?_plain hgap)
      · exact .inl (Word.read_plain _)
      · exact .inr rfl
      · exact .inl (Quote.read_plain _ _)
      · exact .inl (Symbol.read_plain _ _)

/-! ## Whole texts -/

theorem Segment.read?_fronts {text : List Char} {g : Segment} (h : Segment.read? text = some g) :
    ∃ rest, g.Fronts text rest := by
  cases text with
  | nil => exact absurd h nofun
  | cons c rest =>
      rcases Segment.read?_cases h with
        hgap | ⟨-, ⟨hc, rfl⟩ | ⟨hc, rfl⟩ | ⟨q, rfl, rfl⟩ | ⟨-, rfl⟩⟩
      · exact Gap.read?_fronts hgap
      · exact Word.read_fronts hc
      · exact Numeral.read_fronts hc
      · exact Quote.read_fronts q rest
      · exact Symbol.read_fronts c rest

inductive Segmented : List Char → List Segment → Prop
  | nil : Segmented [] []
  | cons {text rest : List Char} {g : Segment} {gs : List Segment}
      (read : Segment.read? text = some g) (fronts : g.Fronts text rest)
      (later : Segmented rest gs) : Segmented text (g :: gs)

theorem segmented_segments (text : List Char) : Segmented text (segments text) := by
  induction hn : text.length using Nat.strong_induction_on generalizing text with
  | _ n ih =>
      cases text with
      | nil => exact .nil
      | cons c more =>
          obtain ⟨g, hg⟩ : ∃ g, Segment.read? (c :: more) = some g := by
            unfold Segment.read?
            cases Gap.read? (c :: more) <;> simp
          obtain ⟨rest, hfronts⟩ := Segment.read?_fronts hg
          have hpos : 0 < g.width := List.length_pos_iff.2 hfronts.nonempty
          have hsegments : segments (c :: more) = g :: segments rest := by
            unfold segments
            rw [chunks_of_some (by simp) hg hpos]
            congr 2
            rw [hfronts.split, Segment.width, List.drop_left]
          have hlen : rest.length < n := by
            rw [← hn, hfronts.split, List.length_append]
            rw [Segment.width] at hpos
            omega
          rw [hsegments]
          exact .cons hg hfronts (ih rest.length hlen rest rfl)

/-- The segments of a text, joined, are the text. -/
theorem Segmented.flatMap_text {text : List Char} {gs : List Segment} (h : Segmented text gs) :
    gs.flatMap (·.text) = text := by
  induction h with
  | nil => rfl
  | cons _ fronts _ ih => rw [List.flatMap_cons, ih, fronts.split]

end Lexical

end MiniJava
