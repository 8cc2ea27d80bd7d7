import MiniJava.Proofs.Lexical.Spacing
/-!
# Words are scanned whole

However an attempt at a word, a number, a comment, a literal or a symbol ends, the next one does not
begin inside a word.  So no word or number stands next to a letter, a digit or an underscore, and
malformed text that begins with one of these is passed over whole.
-/

namespace MiniJava

namespace TokenKind

/-- Names, reserved words, types and truth values. -/
def isWord : TokenKind → Bool
  | identifier | keyword | dataType | boolean => true
  | _ => false

def isNumber : TokenKind → Bool
  | integer | real => true
  | _ => false

end TokenKind

namespace Lexical

open Text

/-! ## Seams -/

def Seam (done rest : List Char) : Prop :=
  ∀ c ∈ done.getLast?, isWordChar c = true → ∀ d ∈ rest.head?, isWordChar d = false

def BeginsInWord (text : List Char) : Prop := ∀ c ∈ text.head?, isWordChar c = true

variable {w rest : List Char} {content : Content}

theorem seam_of_last {c : Char} (h : isWordChar c = false) (before rest : List Char) :
    Seam (before ++ [c]) rest := by
  intro d hd hword
  rw [List.getLast?_concat, Option.mem_some_iff] at hd
  rw [hd, hword] at h
  exact absurd h (by decide)

theorem seam_of_next (h : ∀ d ∈ rest.head?, isWordChar d = false) (done : List Char) :
    Seam done rest := fun _ _ _ => h

theorem seam_append_iff (hne : w ≠ []) (done rest : List Char) :
    Seam (done ++ w) rest ↔ Seam w rest := by
  obtain ⟨before, c, rfl⟩ := List.eq_nil_or_concat w |>.resolve_left hne
  simp [Seam, ← List.append_assoc]

theorem next_of_takeWhile (text : List Char) :
    ∀ d ∈ (text.dropWhile isWordChar).head?, isWordChar d = false := by
  intro d hd
  have hstop := List.head?_dropWhile_not isWordChar text
  rw [Option.mem_def.1 hd] at hstop
  exact hstop

/-! ## Where each attempt ends -/

theorem Gap.read?_malformed {text : List Char} {first : Fault} {others : List Fault}
    (h : read? text = some ⟨w, .malformed first others⟩) : w = text := by
  unfold read? at h
  split at h
  · exact absurd (Option.some.inj h) (by simp [lineComment])
  · unfold blockComment at h
    split at h
    · exact absurd (Option.some.inj h) (by simp)
    · exact ((Segment.mk.injEq ..).mp (Option.some.inj h)).1.symm
  · split at h <;> simp at h
  · exact absurd h (by simp)

theorem Gap.seam (h : read? (w ++ rest) = some ⟨w, content⟩) : Seam w rest := by
  cases content with
  | word l => exact absurd h read?_ne_word
  | malformed first others =>
      have hall := read?_malformed h
      obtain rfl : rest = [] := List.self_eq_append_right.1 hall
      exact seam_of_next (by simp) w
  | gap =>
      obtain ⟨rest', hfronts⟩ := read?_fronts h
      obtain rfl : rest = rest' := List.append_cancel_left hfronts.split
      cases hfronts.described with
      | @blank c hblank =>
          have hparts : partsWords c = true := Bool.or_eq_true_iff.2 (.inl hblank)
          exact seam_of_last (isWordChar_of_partsWords hparts) [] rest
      | line _ hnext =>
          apply seam_of_next
          intro d hd
          rw [Option.mem_def.1 hd] at hnext
          obtain rfl : d = '\n' := hnext
          decide
      | @block body _ =>
          have hclose : '/' :: '*' :: (body ++ ['*', '/']) =
              ('/' :: '*' :: (body ++ ['*'])) ++ ['/'] := by
            simp
          rw [hclose]
          exact seam_of_last (by decide) _ rest

namespace Word

def ReadsPrint (text : List Char) : Prop :=
  ∃ rest, text = Lexicon.printSpelling.toList ++ rest ∧ ∀ d ∈ rest.head?, isWordChar d = false

theorem atBoundary_iff {text : List Char} :
    atBoundary text = true ↔ ∀ d ∈ text.head?, isWordChar d = false := by
  cases text <;> simp [atBoundary]

theorem print_split : Lexicon.printSpelling.toList = printHead ++ printTail :=
  (List.takeWhile_append_dropWhile ..).symm

theorem extent_cases (text : List Char) :
    (ReadsPrint text ∧ extent text = Lexicon.printSpelling.toList) ∨
      (¬ ReadsPrint text ∧ extent text = text.takeWhile isWordChar) := by
  by_cases hprint : ReadsPrint text
  · left
    refine ⟨hprint, ?_⟩
    obtain ⟨rest, rfl, hrest⟩ := hprint
    have hrun : (Lexicon.printSpelling.toList ++ rest).takeWhile isWordChar = printHead := rfl
    have hcontinues : continuesPrint (printTail ++ rest) = true := by
      rw [continuesPrint, List.drop_left, atBoundary_iff.2 hrest, Bool.and_true,
        List.isPrefixOf_iff_prefix]
      exact List.prefix_append _ _
    rw [extent]
    rw [hrun, print_split, List.append_assoc, List.drop_left, if_pos ⟨rfl, hcontinues⟩]
  · right
    refine ⟨hprint, ?_⟩
    rw [extent]
    rw [if_neg]
    rintro ⟨hrun, hcontinues⟩
    apply hprint
    rw [continuesPrint, Bool.and_eq_true, List.isPrefixOf_iff_prefix] at hcontinues
    obtain ⟨⟨rest, hrest⟩, hboundary⟩ := hcontinues
    rw [← hrest, List.drop_left, atBoundary_iff] at hboundary
    refine ⟨rest, ?_, hboundary⟩
    have hsplit :
        text.takeWhile isWordChar ++ text.drop (text.takeWhile isWordChar).length = text :=
      List.prefix_iff_eq_append.1 (List.takeWhile_prefix isWordChar)
    rw [← hsplit, ← hrest, hrun, print_split, List.append_assoc]

theorem next_extent (h : extent (w ++ rest) = w) : ∀ d ∈ rest.head?, isWordChar d = false := by
  rcases extent_cases (w ++ rest) with ⟨⟨rest', htext, hrest⟩, hextent⟩ | ⟨-, hextent⟩
  · rw [← hextent, h] at htext
    rwa [List.append_cancel_left htext]
  · have hsplit := List.takeWhile_append_dropWhile (p := isWordChar) (l := w ++ rest)
    rw [← hextent, h] at hsplit
    rw [← List.append_cancel_left hsplit]
    exact next_of_takeWhile _

theorem read_text (text : List Char) : (read text).text = extent text := by
  unfold read
  dsimp only
  split <;> rfl

end Word

namespace Numeral

theorem read_text (text : List Char) :
    (read text).text = (ofText text).text ++ (ofText text).glued := by
  unfold read
  dsimp only
  split <;> rfl

theorem next_read (h : (read (w ++ rest)).text = w) : ∀ d ∈ rest.head?, isWordChar d = false := by
  obtain ⟨more, hmore, hglued, -⟩ := exists_rest_ofText (w ++ rest)
  have hsplit := List.takeWhile_append_dropWhile (p := isWordChar) (l := more)
  rw [← hsplit, ← hglued, ← List.append_assoc, ← read_text, h] at hmore
  rw [← List.append_cancel_left hmore]
  exact next_of_takeWhile more

end Numeral

namespace Quote

theorem seam (q : Quote) {text : List Char} (hsplit : w ++ rest = q.mark :: text)
    (h : (q.read text).text = w) : Seam w rest := by
  subst h
  unfold read at hsplit ⊢
  split
  · next body _ =>
    have hmark : isWordChar q.mark = false := by cases q <;> decide
    rw [← List.cons_append]
    exact seam_of_last hmark _ rest
  · next hopen =>
    rw [hopen] at hsplit
    obtain rfl : rest = [] := List.append_right_eq_self.1 hsplit
    exact seam_of_next (by simp) _

end Quote

namespace Symbol

/-- What begins with neither a letter nor a digit is a symbol, and has none in it. -/
theorem entry_of_symbol : ∀ e ∈ Lexicon.entries, ∀ c more, e.spelling.toList = c :: more →
    isWordChar c = false →
      (∀ d ∈ e.spelling.toList, isWordChar d = false) ∧
        (e.kind = .operator ∨ e.kind = .delimiter) ∧ e.terminal ≠ .printKeyword := by
  have hall : (Lexicon.entries.all fun e => (e.spelling.toList.head?.map isWordChar).getD true ||
      (e.spelling.toList.all (!isWordChar ·) && (e.kind == .operator || e.kind == .delimiter) &&
        e.terminal != .printKeyword)) = true := by
    decide +kernel
  intro e he c more hspelling hc
  have hentry := List.all_eq_true.1 hall e he
  rw [hspelling] at hentry ⊢
  simpa [hc, and_assoc] using hentry

theorem spelled?_symbol {c : Char} {text : List Char} {g : Segment} (hc : isWordChar c = false)
    (h : spelled? (c :: text) = some g) :
    (∀ d ∈ g.text, isWordChar d = false) ∧ ∃ l, g.content = .word l ∧
      (l.kind = .operator ∨ l.kind = .delimiter) ∧ l.terminal ≠ .printKeyword := by
  obtain rfl := spelled?_eq h
  unfold spelled? at h
  dsimp only at h
  split at h
  · next hcontains =>
    obtain ⟨e, he⟩ := Option.isSome_iff_exists.1 hcontains
    have hspelling : e.spelling = String.ofList (c :: text) := by
      simpa using List.find?_some he
    have hlist : e.spelling.toList = c :: text := by rw [hspelling, String.toList_ofList]
    obtain ⟨hchars, hkind, hprint⟩ :=
      entry_of_symbol e (List.mem_of_find?_eq_some he) c text hlist hc
    rw [hlist] at hchars
    refine ⟨hchars, _, rfl, ?_⟩
    rw [Lexicon.classify, he]
    exact ⟨hkind, hprint⟩
  · cases h

end Symbol

theorem seam_of_all (h : ∀ d ∈ w, isWordChar d = false) (rest : List Char) : Seam w rest := by
  intro d hd hword
  rw [h d (List.mem_of_getLast? hd)] at hword
  exact absurd hword (by decide)

theorem Symbol.seam {c : Char} (hc : isWordChar c = false) (text rest : List Char) :
    Seam (read c text).text rest := by
  apply seam_of_all
  rcases read_cases c text with ⟨word, hspelled⟩ | hunknown
  · obtain ⟨_, hfronts⟩ := read_fronts c text
    obtain ⟨d, more, hword⟩ := List.exists_cons_of_ne_nil hfronts.nonempty
    have hsplit := hfronts.split
    rw [hword] at hsplit
    obtain rfl := (List.cons.inj hsplit).1
    rw [← spelled?_text hspelled, hword] at hspelled
    exact (spelled?_symbol hc hspelled).1
  · rw [hunknown]
    exact List.forall_mem_singleton.2 hc

namespace Segment

theorem next_of_beginsInWord (h : read? (w ++ rest) = some ⟨w, content⟩) (hw : BeginsInWord w) :
    ∀ d ∈ rest.head?, isWordChar d = false := by
  obtain ⟨_, hfronts⟩ := read?_fronts h
  obtain ⟨c, more, rfl⟩ := List.exists_cons_of_ne_nil hfronts.nonempty
  have hc : isWordChar c = true := hw c rfl
  rcases read?_cases h with hgap | ⟨-, ⟨-, hg⟩ | ⟨-, hg⟩ | ⟨q, rfl, -⟩ | ⟨hsymbol, -⟩⟩
  · have hparts : partsWords c = false := by
      rw [Bool.eq_false_iff]
      intro hparts
      rw [isWordChar_of_partsWords hparts] at hc
      exact absurd hc (by decide)
    rw [Gap.read?_eq_none hparts] at hgap
    exact absurd hgap nofun
  · have htext := congrArg Segment.text hg
    rw [Word.read_text] at htext
    exact Word.next_extent (w := c :: more) htext.symm
  · exact Numeral.next_read (w := c :: more) (congrArg Segment.text hg).symm
  · cases q <;> exact absurd hc (by decide)
  · rw [hsymbol] at hc
    exact absurd hc (by decide)

/-- No word goes on behind a segment. -/
theorem seam (h : read? (w ++ rest) = some ⟨w, content⟩) : Seam w rest := by
  obtain ⟨_, hfronts⟩ := read?_fronts h
  obtain ⟨c, more, rfl⟩ := List.exists_cons_of_ne_nil hfronts.nonempty
  by_cases hc : isWordChar c = true
  · apply seam_of_next
    apply next_of_beginsInWord h
    intro d hd
    obtain rfl : c = d := Option.some.inj hd
    exact hc
  · rcases read?_cases h with
      hgap | ⟨-, ⟨hbegins, -⟩ | ⟨hdigit, -⟩ | ⟨q, rfl, hg⟩ | ⟨hsymbol, hg⟩⟩
    · exact Gap.seam hgap
    · exact absurd (Word.isWordChar_of_begins hbegins) hc
    · exact absurd (by simp [isWordChar, Char.isAlphanum, hdigit]) hc
    · exact q.seam rfl (congrArg Segment.text hg).symm
    · have hseam := Symbol.seam hsymbol (more ++ rest) rest
      rwa [← show _ = Symbol.read c (more ++ rest) from hg] at hseam

end Segment

/-! ## What words and numbers cover -/

/-- How much of a text a lexeme at its front covers.  Words and numbers begin in a word, the print
keyword is found exactly where it is written, and any other word is a whole run of letters, digits
and underscores. -/
structure Covers (l : Lexeme) (w rest : List Char) : Prop where
  begins : l.kind.isWord = true ∨ l.kind.isNumber = true → BeginsInWord w
  print : l.terminal = .printKeyword ↔ l.kind.isWord = true ∧ Word.ReadsPrint (w ++ rest)
  spelled : l.terminal = .printKeyword → w = Lexicon.printSpelling.toList
  run : l.kind.isWord = true → l.terminal ≠ .printKeyword → w = (w ++ rest).takeWhile isWordChar

variable {l : Lexeme}

theorem covers_of_other (hword : l.kind.isWord = false) (hnumber : l.kind.isNumber = false)
    (hprint : l.terminal ≠ .printKeyword) : Covers l w rest where
  begins h := by simp [hword, hnumber] at h
  print := by simp [hword, hprint]
  spelled h := absurd h hprint
  run h := by simp [hword] at h

theorem Quote.covers_content (q : Quote) {body : List Char} (h : q.content body = .word l) :
    Covers l w rest := by
  unfold content at h
  split at h
  · obtain rfl := Content.word.inj h
    exact covers_of_other rfl rfl nofun
  · obtain rfl := Content.word.inj h
    exact covers_of_other rfl rfl nofun
  · exact absurd h nofun

theorem Symbol.covers {c : Char} {text : List Char} (hc : isWordChar c = false)
    (h : read c text = ⟨w, .word l⟩) : Covers l w rest := by
  rcases read_cases c text with ⟨word, hspelled⟩ | hunknown
  · obtain ⟨after, hfronts⟩ := read_fronts c text
    rw [h] at hspelled hfronts
    obtain ⟨d, more, rfl⟩ := List.exists_cons_of_ne_nil hfronts.nonempty
    obtain rfl : c = d := (List.cons.inj hfronts.split).1
    obtain rfl : c :: more = word := spelled?_text hspelled
    obtain ⟨-, l', hl, hkind, hprint⟩ := spelled?_symbol hc hspelled
    obtain rfl := Content.word.inj hl
    rcases hkind with hkind | hkind <;>
      exact covers_of_other (by rw [hkind]; rfl) (by rw [hkind]; rfl) hprint
  · rw [h] at hunknown
    exact absurd (congrArg Segment.content hunknown) nofun

namespace Numeral

theorem value_word {n : Numeral} (h : n.value = .word l) :
    ∃ kind payload, l = .literal kind (String.ofList n.text) payload ∧ kind.isNumber = true := by
  unfold value at h
  dsimp only at h
  split at h
  · split at h
    · exact ⟨_, _, (Content.word.inj h).symm, rfl⟩
    · exact absurd h nofun
  split at h
  · exact absurd h nofun
  split at h
  · exact ⟨_, _, (Content.word.inj h).symm, rfl⟩
  · exact absurd h nofun

theorem covers {c : Char} {more text : List Char} (hc : c.isDigit = true)
    (h : read text = ⟨c :: more, .word l⟩) : Covers l (c :: more) rest := by
  unfold read at h
  dsimp only at h
  split at h
  · obtain ⟨kind, payload, rfl, hkind⟩ := value_word (congrArg Segment.content h)
    have hword : kind.isWord = false := by
      revert hkind
      cases kind <;> decide
    exact {
      begins := by
        rintro _ d ⟨⟩
        simp [isWordChar, Char.isAlphanum, hc]
      print := by simp [Lexeme.literal, hword]
      spelled := fun h => by cases h
      run := fun h => absurd h (by simp [Lexeme.literal, hword]) }
  · cases (Segment.mk.inj h).2

end Numeral

namespace Word

theorem terminal_print : (Lexicon.classify Lexicon.printSpelling).terminal = .printKeyword ∧
    (Lexicon.classify Lexicon.printSpelling).kind = .keyword := by
  decide +kernel

theorem eq_printSpelling {word : String}
    (h : (Lexicon.classify word).terminal = .printKeyword) : word = Lexicon.printSpelling := by
  rcases Lexicon.classify_cases word with ⟨-, hname⟩ | ⟨x, hx, hreserved⟩
  · rw [hname] at h
    exact absurd h nofun
  · rw [hreserved, Terminal.lexeme_terminal hx] at h
    subst h
    rw [← Lexicon.classify_text word, hreserved]
    decide +kernel

theorem covers {text : List Char} (htext : w ++ rest = text) (h : read text = ⟨w, .word l⟩) :
    Covers l w rest := by
  subst htext
  have hw : w = extent (w ++ rest) := by
    rw [← read_text, h]
  have hl : l = Lexicon.classify (String.ofList w) := by
    unfold read at h
    dsimp only at h
    rw [← hw] at h
    split at h
    · exact absurd (congrArg Segment.content h) nofun
    · exact (Content.word.inj (congrArg Segment.content h)).symm
  subst hl
  rcases extent_cases (w ++ rest) with ⟨hprint, hextent⟩ | ⟨hprint, hextent⟩
  · rw [← hw] at hextent
    obtain ⟨hterminal, hkind⟩ := terminal_print
    have hword : String.ofList w = Lexicon.printSpelling := by
      rw [hextent, String.ofList_toList]
    rw [← hword] at hterminal hkind
    have hbegins : BeginsInWord w := by
      rw [hextent]
      rintro d ⟨⟩
      decide
    exact {
      begins := fun _ => hbegins
      print := ⟨fun _ => ⟨by rw [hkind]; rfl, hprint⟩, fun _ => hterminal⟩
      spelled := fun _ => hextent
      run := fun _ hne => absurd hterminal hne }
  · rw [← hw] at hextent
    have hall : ∀ d ∈ w, isWordChar d = true := by
      rw [hextent]
      exact fun _ => List.mem_takeWhile_imp
    have hterminal : (Lexicon.classify (String.ofList w)).terminal ≠ .printKeyword := by
      intro hterminal
      have hspelling := congrArg String.toList (eq_printSpelling hterminal)
      rw [String.toList_ofList] at hspelling
      have hdot := hall '.' (by rw [hspelling]; decide)
      exact absurd hdot (by decide)
    exact {
      begins := fun _ d hd => hall d (List.mem_of_head? hd)
      print := by simp [hterminal, hprint]
      spelled := fun h => absurd h hterminal
      run := fun _ _ => hextent }

end Word

theorem Segment.covers (h : read? (w ++ rest) = some ⟨w, .word l⟩) : Covers l w rest := by
  obtain ⟨_, hfronts⟩ := read?_fronts h
  obtain ⟨c, more, rfl⟩ := List.exists_cons_of_ne_nil hfronts.nonempty
  rcases read?_cases h with hgap | ⟨-, ⟨-, hg⟩ | ⟨hdigit, hg⟩ | ⟨q, rfl, hg⟩ | ⟨hsymbol, hg⟩⟩
  · exact absurd hgap Gap.read?_ne_word
  · exact Word.covers rfl hg.symm
  · exact Numeral.covers hdigit hg.symm
  · unfold Quote.read at hg
    split at hg
    · exact q.covers_content (congrArg Segment.content hg).symm
    · exact absurd (congrArg Segment.content hg) nofun
  · exact Symbol.covers hsymbol hg.symm

/-! ## Stretches of a source -/

structure Span.Whole (s : Span) (text : List Char) : Prop where
  before : ∀ c ∈ (text.take s.start).getLast?, isWordChar c = false
  after : ∀ c ∈ (text.drop s.stop).head?, isWordChar c = false

theorem Span.whole_of_seam {done : List Char} (hseam : Seam done (w ++ rest)) (hne : w ≠ [])
    (hw : BeginsInWord w) (hrest : ∀ d ∈ rest.head?, isWordChar d = false) :
    Span.Whole ⟨done.length, done.length + w.length⟩ (done ++ (w ++ rest)) := by
  constructor
  · intro c hc
    rw [List.take_left] at hc
    obtain ⟨d, more, rfl⟩ := List.exists_cons_of_ne_nil hne
    rw [Bool.eq_false_iff]
    intro hword
    have hd := hseam c hc hword d rfl
    rw [hw d rfl] at hd
    exact absurd hd (by decide)
  · rw [← List.drop_drop, List.drop_left, List.drop_left]
    exact hrest

structure WordAt (text : List Char) (t : Token) (s : Span) : Prop where
  whole : t.kind.isWord = true ∨ t.kind.isNumber = true → s.Whole text
  print : t.terminal = .printKeyword ↔
    t.kind.isWord = true ∧ Word.ReadsPrint (text.drop s.start)
  spelled : t.terminal = .printKeyword → s.slice text = Lexicon.printSpelling.toList
  run : t.kind.isWord = true → t.terminal ≠ .printKeyword →
    s.slice text = (text.drop s.start).takeWhile isWordChar

theorem wordAt_of_read? {done : List Char} (hread : Segment.read? (w ++ rest) = some ⟨w, .word l⟩)
    (hseam : Seam done (w ++ rest)) (place : Location) :
    WordAt (done ++ (w ++ rest)) ⟨l, place⟩ ⟨done.length, done.length + w.length⟩ := by
  obtain ⟨_, hfronts⟩ := Segment.read?_fronts hread
  have hcovers := Segment.covers hread
  have hslice : Span.slice ⟨done.length, done.length + w.length⟩ (done ++ (w ++ rest)) = w := by
    rw [Span.slice, List.drop_left, Nat.add_sub_cancel_left, List.take_left]
  constructor
  · intro hkind
    have hbegins := hcovers.begins hkind
    exact Span.whole_of_seam hseam hfronts.nonempty hbegins
      (Segment.next_of_beginsInWord hread hbegins)
  · rw [List.drop_left]
    exact hcovers.print
  · rw [hslice]
    exact hcovers.spelled
  · rw [hslice, List.drop_left]
    exact hcovers.run

theorem Segmented.wordAt {text : List Char} {gs : List Segment} (h : Segmented text gs)
    (source : String) (done : List Char) (hseam : Seam done text) :
    List.Forall₂ (WordAt (done ++ text))
      (Readings.ofSegments source (Point.origin.after done) gs).tokens
      (wordSpans done.length gs) := by
  induction h generalizing done with
  | nil => exact .nil
  | @cons text rest g gs hread fronts _ ih =>
      obtain ⟨w, content⟩ := g
      obtain rfl : text = w ++ rest := fronts.split
      have hlater := ih (done ++ w)
        ((seam_append_iff fronts.nonempty done rest).2 (Segment.seam hread))
      rw [List.append_assoc, Point.after_append, List.length_append] at hlater
      unfold Readings.ofSegments wordSpans
      cases content with
      | gap => exact hlater
      | malformed first others =>
          dsimp only
          rw [Readings.tokens_precededBy]
          exact hlater
      | word l => exact .cons (wordAt_of_read? hread hseam _) hlater

def malformedSpans : Nat → List Segment → List Span
  | _, [] => []
  | n, g :: gs =>
    match g.content with
    | .malformed _ _ => ⟨n, n + g.width⟩ :: malformedSpans (n + g.width) gs
    | _ => malformedSpans (n + g.width) gs

theorem le_start_of_mem_malformedSpans {n : Nat} {gs : List Segment} {s : Span}
    (h : s ∈ malformedSpans n gs) : n ≤ s.start := by
  induction gs generalizing n with
  | nil => simp [malformedSpans] at h
  | cons g gs ih =>
      unfold malformedSpans at h
      split at h
      · rcases List.mem_cons.1 h with rfl | h
        · exact Nat.le_refl _
        · exact Nat.le_trans (Nat.le_add_right _ _) (ih h)
      · exact Nat.le_trans (Nat.le_add_right _ _) (ih h)

/-- No word is found within malformed text. -/
theorem malformedSpans_apart {n : Nat} {gs : List Segment} {s t : Span}
    (hs : s ∈ malformedSpans n gs) (ht : t ∈ wordSpans n gs) :
    t.stop ≤ s.start ∨ s.stop ≤ t.start := by
  induction gs generalizing n with
  | nil => simp [malformedSpans] at hs
  | cons g gs ih =>
      unfold malformedSpans at hs
      unfold wordSpans at ht
      cases hc : g.content with
      | gap =>
          rw [hc] at hs ht
          exact ih hs ht
      | word l =>
          rw [hc] at hs ht
          rcases List.mem_cons.1 ht with rfl | ht
          · exact .inl (le_start_of_mem_malformedSpans hs)
          · exact ih hs ht
      | malformed first others =>
          rw [hc] at hs ht
          rcases List.mem_cons.1 hs with rfl | hs
          · exact .inr (le_start_of_mem_wordSpans ht)
          · exact ih hs ht

/-- Malformed text that begins in a word is passed over to the end of that word. -/
theorem Segmented.malformed_whole {text : List Char} {gs : List Segment} (h : Segmented text gs)
    (done : List Char) (hseam : Seam done text) :
    ∀ s ∈ malformedSpans done.length gs,
      BeginsInWord ((done ++ text).drop s.start) → s.Whole (done ++ text) := by
  induction h generalizing done with
  | nil => exact List.forall_mem_nil _
  | @cons text rest g gs hread fronts _ ih =>
      obtain ⟨w, content⟩ := g
      obtain rfl : text = w ++ rest := fronts.split
      have hlater := ih (done ++ w)
        ((seam_append_iff fronts.nonempty done rest).2 (Segment.seam hread))
      rw [List.append_assoc, List.length_append] at hlater
      unfold malformedSpans
      cases content with
      | gap => exact hlater
      | word l => exact hlater
      | malformed first others =>
          refine List.forall_mem_cons.2 ⟨fun hbegins => ?_, hlater⟩
          have hne : w ≠ [] := fronts.nonempty
          rw [List.drop_left] at hbegins
          have hw : BeginsInWord w := by
            obtain ⟨c, more, rfl⟩ := List.exists_cons_of_ne_nil hne
            exact hbegins
          exact Span.whole_of_seam hseam hne hw (Segment.next_of_beginsInWord hread hw)

/-- No fragment of a longer word is given as a token.  Words and numbers have no letter, digit or
underscore next to them.  A word that begins where the print keyword is written in full is that
keyword, no other token is, and any other word is the whole run of letters, digits and underscores
from its start.  Malformed text that begins in such a run ends where a run ends, and no token stands
in it. -/
theorem words_whole (source text : String) :
    ∃ spans : List Span,
      let cs := text.toList
      let token (i : Nat) := ((TokenStream.ofText source text).skip (i + 1)).current
      (∀ (i : Nat) (h : i < spans.length),
        StandsAt source cs (token i) spans[i] ∧ WordAt cs (token i) spans[i]) ∧
      (∀ i, spans.length ≤ i → (token i).isEndOfFile = true) ∧
      ∀ s ∈ malformedSpans 0 (segments cs),
        (BeginsInWord (cs.drop s.start) → s.Whole cs) ∧
          ∀ t ∈ spans, t.stop ≤ s.start ∨ s.stop ≤ t.start := by
  have hseg := segmented_segments text.toList
  have hseam : Seam [] text.toList := fun _ h => absurd h nofun
  let stream := TokenStream.ofText source text
  have hstands : List.Forall₂ (StandsAt source text.toList) stream.remaining
      (wordSpans 0 (segments text.toList)) := hseg.standsAt source []
  have hwords : List.Forall₂ (WordAt text.toList) stream.remaining
      (wordSpans 0 (segments text.toList)) := hseg.wordAt source [] hseam
  have hlength := hstands.length_eq
  refine ⟨wordSpans 0 (segments text.toList), ?_, ?_, ?_⟩
  · intro i hi
    have hi' : i < stream.remaining.length := hlength ▸ hi
    have htoken : (stream.skip (i + 1)).current = stream.remaining[i] := by
      rw [stream.current_skip, List.getElem?_eq_getElem hi', Option.getD_some]
    show StandsAt source text.toList (stream.skip (i + 1)).current _ ∧
      WordAt text.toList (stream.skip (i + 1)).current _
    rw [htoken]
    exact ⟨hstands.get hi' hi, hwords.get hi' hi⟩
  · intro i hi
    show (stream.skip (i + 1)).current.isEndOfFile = true
    rw [TokenStream.isEndOfFile_current_skip]
    exact decide_eq_true (hlength ▸ hi)
  · intro s hs
    exact ⟨hseg.malformed_whole [] hseam s hs, fun t ht => malformedSpans_apart hs ht⟩

/-- Malformed runs between blanks, each passed over as one. -/
example : (malformedSpans 0 (segments "_abc 123abc 0x1G 0178 1e+x".toList)).map
    (fun s => (s.start, s.stop)) = [(0, 4), (5, 11), (12, 16), (17, 21), (22, 26)] := by
  decide +kernel

end Lexical

end MiniJava
