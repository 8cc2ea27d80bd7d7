import MiniJava.Proofs.Lexical.Segments
/-!
# Where words end

A word is read the same again if nothing, a blank or a comment follows it.  No recogniser
looks past such a place: neither goes a run of letters or digits on there, nor the print
keyword, a number, or a pair of symbols.
-/

namespace MiniJava.Lexical

open Text

def partsWords (c : Char) : Bool := isBlank c || c == '/'

/-- Nothing, or what parts words, is at the front of a text. -/
def Parted (rest : List Char) : Prop := ∀ c ∈ rest.head?, partsWords c = true

/-! ## Characters -/

theorem isWordChar_of_partsWords {c : Char} (h : partsWords c = true) : isWordChar c = false := by
  rw [Bool.eq_false_iff]
  intro hword
  simp only [partsWords, isBlank, Bool.or_eq_true, Bool.and_eq_true, decide_eq_true_eq,
    beq_iff_eq] at h
  simp only [isWordChar, Bool.or_eq_true, beq_iff_eq, isAlphanum_iff] at hword
  rcases h with h | rfl
  · rcases hword with hword | rfl
    · omega
    · exact absurd h (by decide)
  · exact absurd hword (by decide)

theorem isAlphanum_of_partsWords {c : Char} (h : partsWords c = true) : c.isAlphanum = false :=
  (Bool.or_eq_false_iff.1 (isWordChar_of_partsWords h)).1

theorem isDigit_of_partsWords {c : Char} (h : partsWords c = true) : c.isDigit = false :=
  (Bool.or_eq_false_iff.1 (isAlphanum_of_partsWords h)).2

theorem radix_isDigit_of_partsWords {c : Char} (h : partsWords c = true) (radix : Radix) :
    radix.isDigit c = false := by
  rw [Bool.eq_false_iff]
  intro hdigit
  have halphanum := Radix.isAlphanum_of_isDigit hdigit
  rw [isAlphanum_of_partsWords h] at halphanum
  exact absurd halphanum (by decide)

theorem Parted.head?_ne {rest : List Char} {c : Char} (h : Parted rest)
    (hc : partsWords c = false) : rest.head? ≠ some c := by
  intro hhead
  rw [h c hhead] at hc
  exact absurd hc (by decide)

/-- A run of characters ends where the next one is of another sort. -/
theorem takeWhile_append_of_front {p : Char → Bool} {run rest : List Char}
    (hrun : ∀ c ∈ run, p c = true) (hrest : ∀ c ∈ rest.head?, p c = false) :
    (run ++ rest).takeWhile p = run := by
  rw [List.takeWhile_append_of_pos hrun]
  cases rest with
  | nil => rw [List.takeWhile_nil, List.append_nil]
  | cons c more =>
      have hc : ¬ p c = true := by
        rw [hrest c rfl]
        exact Bool.false_ne_true
      rw [List.takeWhile_cons_of_neg hc, List.append_nil]

/-! ## Words -/

namespace Word

theorem continuesPrint_of_parted {rest : List Char} (h : Parted rest) :
    continuesPrint rest = false := by
  cases rest with
  | nil => rfl
  | cons c more =>
      have hdot : '.' ≠ c := fun hc => h.head?_ne (c := '.') (by decide) (congrArg some hc.symm)
      have hprefix : printTail.isPrefixOf (c :: more) = false := by
        rw [show printTail = '.' :: "out.println".toList from rfl, List.isPrefixOf_cons_cons,
          beq_eq_false_iff_ne.2 hdot, Bool.false_and]
      rw [continuesPrint, hprefix, Bool.false_and]

theorem atBoundary_of_parted {rest : List Char} (h : Parted rest) : atBoundary rest = true := by
  cases rest with
  | nil => rfl
  | cons c more => simp [atBoundary, isWordChar_of_partsWords (h c rfl)]

theorem extent_append {text rest : List Char} (h : Parted rest) :
    extent (extent text ++ rest) = extent text := by
  by_cases hprint : text.takeWhile isWordChar = printHead ∧
      continuesPrint (text.drop (text.takeWhile isWordChar).length) = true
  · have hextent : extent text = printHead ++ printTail := by
      rw [extent]
      rw [if_pos hprint, hprint.1]
    have hrun : (printHead ++ printTail ++ rest).takeWhile isWordChar = printHead := rfl
    have hcontinues : continuesPrint (printTail ++ rest) = true := by
      rw [continuesPrint, List.drop_left, atBoundary_of_parted h, Bool.and_true,
        List.isPrefixOf_iff_prefix]
      exact List.prefix_append _ _
    rw [hextent, extent]
    rw [hrun, List.append_assoc, List.drop_left, if_pos ⟨rfl, hcontinues⟩]
  · have hextent : extent text = text.takeWhile isWordChar := by
      rw [extent]
      rw [if_neg hprint]
    have hrun : (text.takeWhile isWordChar ++ rest).takeWhile isWordChar =
        text.takeWhile isWordChar :=
      takeWhile_append_of_front (fun _ => List.mem_takeWhile_imp) fun c hc =>
        isWordChar_of_partsWords (h c hc)
    rw [hextent, extent]
    rw [hrun, List.drop_left, continuesPrint_of_parted h, if_neg (by simp)]

theorem read_append {text rest : List Char} {w : List Char} {l : Lexeme} (h : Parted rest)
    (hread : read text = ⟨w, .word l⟩) : read (w ++ rest) = ⟨w, .word l⟩ := by
  have hw : w = extent text := by
    unfold read at hread
    dsimp only at hread
    split at hread <;> exact (congrArg Segment.text hread).symm
  rw [← hread, hw, read, read]
  rw [extent_append h]

end Word

/-! ## Quoted literals -/

namespace Quote

theorem body?_append {q : Quote} {text body : List Char} (h : q.body? text = some body)
    (rest : List Char) : q.body? (body ++ q.mark :: rest) = some body := by
  fun_induction body? q text generalizing body with
  | case1 => exact absurd h (by simp)
  | case2 =>
      obtain rfl := Option.some.inj h
      unfold body?
      rw [List.nil_append]
      exact if_pos rfl
  | case3 => exact absurd h (by simp)
  | case4 d _ hmark ih =>
      obtain ⟨tail, htail, rfl⟩ := Option.map_eq_some_iff.1 h
      unfold body?
      simp only [List.cons_append, if_neg hmark, if_true, ih htail, Option.map_some]
  | case5 c _ hmark hescape ih =>
      obtain ⟨tail, htail, rfl⟩ := Option.map_eq_some_iff.1 h
      unfold body?
      simp only [List.cons_append, if_neg hmark, if_neg hescape, ih htail, Option.map_some]

theorem read_append {q : Quote} {text more w : List Char} {l : Lexeme}
    (hread : q.read text = ⟨q.mark :: w, .word l⟩) :
    q.read (w ++ more) = ⟨q.mark :: w, .word l⟩ := by
  cases hbody : q.body? text with
  | none => simp [read, hbody] at hread
  | some body =>
      simp only [read, hbody, Segment.mk.injEq, List.cons.injEq, true_and] at hread
      obtain ⟨rfl, hcontent⟩ := hread
      rw [List.append_assoc, List.singleton_append, read, body?_append hbody]
      exact congrArg (Segment.mk _) hcontent

end Quote

/-! ## Operators and delimiters -/

namespace Symbol

theorem partsWords_of_mem_spelling :
    ∀ e ∈ Lexicon.entries, ∀ c ∈ e.spelling.toList, partsWords c = false := by
  have hall : (Lexicon.entries.all fun e => e.spelling.toList.all fun c => !partsWords c) =
      true := by
    decide +kernel
  intro e he c hc
  have hspelling := List.all_eq_true.1 hall e he
  simpa using List.all_eq_true.1 hspelling c hc

theorem spelled?_eq_none {text : List Char} {c : Char} (hc : c ∈ text)
    (h : partsWords c = true) : spelled? text = none := by
  unfold spelled?
  dsimp only
  split
  · next hcontains =>
    obtain ⟨e, he⟩ := Option.isSome_iff_exists.1 hcontains
    have hspelling : e.spelling = String.ofList text := by
      simpa using List.find?_some he
    have hchar := partsWords_of_mem_spelling e (List.mem_of_find?_eq_some he) c
      (by rwa [hspelling, String.toList_ofList])
    rw [h] at hchar
    exact absurd hchar (by decide)
  · rfl

theorem spelled?_text {text : List Char} {g : Segment} (h : spelled? text = some g) :
    g.text = text :=
  congrArg Segment.text (spelled?_eq h)

theorem read_of_parted {c : Char} {rest : List Char} {g : Segment} (h : Parted rest)
    (hone : spelled? [c] = some g) : read c rest = g := by
  cases rest with
  | nil => simp [read, hone]
  | cons d more =>
      have hpair : spelled? [c, d] = none := spelled?_eq_none (c := d) (by simp) (h d rfl)
      simp [read, hpair, hone]

theorem read_append {c : Char} {text rest w : List Char} {l : Lexeme} (h : Parted rest)
    (hread : read c text = ⟨c :: w, .word l⟩) : read c (w ++ rest) = ⟨c :: w, .word l⟩ := by
  have halone : (spelled? [c]).getD ⟨[c], .malformed (.atStart (.unknownCharacter c)) []⟩ =
      ⟨c :: w, .word l⟩ → read c (w ++ rest) = ⟨c :: w, .word l⟩ := by
    intro hdefault
    cases hone : spelled? [c] with
    | none => simp [hone] at hdefault
    | some g =>
        obtain rfl : g = ⟨c :: w, .word l⟩ := by simpa [hone] using hdefault
        obtain rfl : w = [] := by simpa using spelled?_text hone
        exact read_of_parted h hone
  cases text with
  | nil => exact halone hread
  | cons d more =>
      cases hpair : spelled? [c, d] with
      | none => exact halone (by simpa [read, hpair] using hread)
      | some g =>
          obtain rfl : g = ⟨c :: w, .word l⟩ := by simpa [read, hpair] using hread
          obtain rfl : w = [d] := by simpa using spelled?_text hpair
          simp [read, hpair]

end Symbol

/-! ## Numbers -/

namespace NumeralPart

def digits : NumeralPart → List Char
  | fraction digits => digits
  | exponent _ _ digits => digits

/-- A part as it is read: digits are digits, and an exponent belongs to a decimal number, has
its mark and may have a sign. -/
inductive Formed (radix : Radix) : NumeralPart → Prop
  | fraction {digits : List Char} (h : ∀ c ∈ digits, c.isDigit = true) (hne : digits ≠ []) :
      Formed radix (.fraction digits)
  | exponent {mark : Char} {sign : Option Char} {digits : List Char}
      (h : ∀ c ∈ digits, c.isDigit = true) (hradix : radix = .decimal)
      (hmark : mark = 'e' ∨ mark = 'E') (hsign : ∀ c ∈ sign, c = '+' ∨ c = '-') :
      Formed radix (.exponent mark sign digits)

theorem readExponent_formed {mark : Char} (hmark : mark = 'e' ∨ mark = 'E') (s : List Char) :
    (readExponent mark s).Formed .decimal := by
  unfold readExponent
  split <;> exact .exponent (fun _ => List.mem_takeWhile_imp) rfl hmark (by simp)

theorem read?_formed {radix : Radix} {s : List Char} {part : NumeralPart}
    (h : read? radix s = some part) : part.Formed radix := by
  unfold read? at h
  split at h
  · exact absurd h (by simp)
  · next c rest =>
    split at h
    · split at h
      · next hdigit =>
        obtain rfl := Option.some.inj h
        refine .fraction (fun _ => List.mem_takeWhile_imp) ?_
        cases rest with
        | nil => exact absurd hdigit (by simp)
        | cons d more =>
            rw [List.takeWhile_cons_of_pos (by simpa using hdigit)]
            exact List.cons_ne_nil _ _
      · exact absurd h (by simp)
    · split at h
      · next hexponent =>
        obtain rfl := Option.some.inj h
        obtain ⟨rfl, hmark⟩ := hexponent
        exact readExponent_formed hmark rest
      · exact absurd h (by simp)

/-- Without faults only decimal numbers have parts, and each of these has digits; and what
follows the number is not to blame. -/
theorem of_faults_nil {radix : Radix} {after : List Char} {hasFraction hasExponent : Bool}
    {offset : Nat} {parts : List NumeralPart} (hformed : ∀ part ∈ parts, part.Formed radix)
    (h : faults radix after hasFraction hasExponent offset parts = []) :
    (∀ part ∈ parts, radix = .decimal ∧ part.digits ≠ []) ∧
      ∀ after', faults radix after' hasFraction hasExponent offset parts = [] := by
  induction parts generalizing hasFraction hasExponent offset with
  | nil => exact ⟨by simp, fun _ => rfl⟩
  | cons part parts ih =>
      obtain ⟨hpart, hparts⟩ := List.forall_mem_cons.1 hformed
      cases hpart with
      | fraction _ hne =>
          simp only [faults, List.append_eq_nil_iff] at h ⊢
          obtain ⟨hhere, hlater⟩ := h
          obtain ⟨hcomplete, hafter⟩ := ih hparts hlater
          have hradix : radix = .decimal := by
            cases radix with
            | decimal => rfl
            | octal => exact absurd hhere.2 (by simp)
            | hexadecimal => exact absurd hhere.2 (by simp)
          exact ⟨List.forall_mem_cons.2 ⟨⟨hradix, hne⟩, hcomplete⟩, fun _ => ⟨hhere, hafter _⟩⟩
      | @exponent _ _ digits _ hradix =>
          simp only [faults, List.append_eq_nil_iff] at h ⊢
          obtain ⟨⟨hone, hhere⟩, hlater⟩ := h
          obtain ⟨hcomplete, hafter⟩ := ih hparts hlater
          have hne : digits ≠ [] := by
            rintro rfl
            exact absurd hhere (by simp)
          refine ⟨List.forall_mem_cons.2 ⟨⟨hradix, hne⟩, hcomplete⟩, fun _ => ?_⟩
          exact ⟨⟨hone, by simp [hne]⟩, hafter _⟩

def NoDigit (rest : List Char) : Prop := ∀ c ∈ rest.head?, c.isDigit = false

theorem readExponent_append {mark : Char} {sign : Option Char} {digits rest : List Char}
    (hsign : ∀ c ∈ sign, c = '+' ∨ c = '-') (h : ∀ c ∈ digits, c.isDigit = true)
    (hne : digits ≠ []) (hrest : NoDigit rest) :
    readExponent mark (sign.toList ++ digits ++ rest) = .exponent mark sign digits := by
  have hrun : (digits ++ rest).takeWhile Char.isDigit = digits :=
    takeWhile_append_of_front h hrest
  cases sign with
  | some c =>
      rcases hsign c rfl with rfl | rfl
      · exact congrArg (exponent mark (some '+')) hrun
      · exact congrArg (exponent mark (some '-')) hrun
  | none =>
      cases digits with
      | nil => exact absurd rfl hne
      | cons d more =>
          have hd := h d (List.mem_cons_self ..)
          rw [Option.toList_none, List.nil_append]
          unfold readExponent
          split
          · next heq =>
            obtain rfl := (List.cons.inj heq).1
            exact absurd hd (by decide)
          · next heq =>
            obtain rfl := (List.cons.inj heq).1
            exact absurd hd (by decide)
          · rw [hrun]

theorem Formed.read?_append {part : NumeralPart} (h : part.Formed .decimal)
    (hne : part.digits ≠ []) {rest : List Char} (hrest : NoDigit rest) :
    read? .decimal (part.text ++ rest) = some part := by
  cases h with
  | @fraction digits h _ =>
      have hdigit : ((digits ++ rest).head?.map Char.isDigit).getD false = true := by
        cases digits with
        | nil => exact absurd rfl hne
        | cons d more => exact h d (List.mem_cons_self ..)
      rw [text, List.cons_append, read?, if_pos rfl, if_pos hdigit,
        takeWhile_append_of_front h hrest]
  | @exponent mark sign digits h _ hmark hsign =>
      have hdot : mark ≠ '.' := by rcases hmark with rfl | rfl <;> decide
      rw [text, List.cons_append, read?, if_neg hdot, if_pos ⟨rfl, hmark⟩,
        readExponent_append hsign h hne hrest]

theorem noDigit_of_parted {rest : List Char} (h : Parted rest) : NoDigit rest :=
  fun c hc => isDigit_of_partsWords (h c hc)

theorem read?_of_parted {radix : Radix} {rest : List Char} (h : Parted rest) :
    read? radix rest = none := by
  cases rest with
  | nil => rfl
  | cons c more =>
      have hne : ∀ d, partsWords d = false → c ≠ d := by
        rintro d hd rfl
        exact h.head?_ne hd rfl
      rw [read?, if_neg (hne '.' (by decide)), if_neg]
      rintro ⟨-, rfl | rfl⟩
      · exact hne 'e' (by decide) rfl
      · exact hne 'E' (by decide) rfl

theorem noDigit_flatMap {parts : List NumeralPart} {rest : List Char}
    (h : ∀ part ∈ parts, part.Formed .decimal) (hrest : NoDigit rest) :
    NoDigit (parts.flatMap text ++ rest) := by
  cases parts with
  | nil => exact hrest
  | cons part parts =>
      rw [List.flatMap_cons, List.append_assoc]
      cases h part (List.mem_cons_self ..) with
      | fraction =>
          rintro c hc
          obtain rfl : '.' = c := Option.some.inj hc
          decide
      | @exponent mark _ _ _ _ hmark =>
          rintro c hc
          obtain rfl : mark = c := Option.some.inj hc
          rcases hmark with rfl | rfl <;> decide

/-- The parts of a number are read the same where neither a digit nor another part follows. -/
theorem chunks_append {parts : List NumeralPart} {rest : List Char} (hdigit : NoDigit rest)
    (hrest : read? .decimal rest = none)
    (h : ∀ part ∈ parts, part.Formed .decimal ∧ part.digits ≠ []) :
    chunks (read? .decimal) (·.text.length) (parts.flatMap text ++ rest) = parts := by
  induction parts with
  | nil => exact chunks_of_none hrest
  | cons part parts ih =>
      obtain ⟨⟨hpart, hdigits⟩, hparts⟩ := List.forall_mem_cons.1 h
      have hfollow : NoDigit (parts.flatMap text ++ rest) :=
        noDigit_flatMap (fun part hmem => (hparts part hmem).1) hdigit
      have hread := hpart.read?_append hdigits hfollow
      have hne : part.text ≠ [] := by cases part <;> simp [text]
      rw [List.flatMap_cons, List.append_assoc,
        chunks_of_some (List.append_ne_nil_of_left_ne_nil hne _) hread (List.length_pos_iff.2 hne),
        List.drop_left, ih hparts]

end NumeralPart

theorem mem_chunks {α : Type} {read? : List Char → Option α} {width : α → Nat}
    {text : List Char} {a : α} (h : a ∈ chunks read? width text) : ∃ s, read? s = some a := by
  have hafter : ∀ (text : List Char) (skip : Nat), a ∈ chunksAfter read? width skip text →
      ∃ s, read? s = some a := by
    intro text
    induction text with
    | nil =>
        intro skip h
        cases skip <;> exact absurd h (by simp [chunksAfter])
    | cons c rest ih =>
        intro skip h
        cases skip with
        | succ skip => exact ih skip h
        | zero =>
            unfold chunksAfter at h
            split at h
            · exact absurd h (by simp)
            · next b hread =>
              rcases List.mem_cons.1 h with rfl | h
              · exact ⟨_, hread⟩
              · exact ih _ h
  exact hafter text 0 h

namespace Numeral

theorem radixMark_cons_cons (c d : Char) (rest : List Char) :
    radixMark (c :: d :: rest) =
      if c = '0' then
        if d = 'x' ∨ d = 'X' then (.hexadecimal, ['0', d])
        else if Radix.octal.isDigit d then (.octal, ['0'])
        else (.decimal, [])
      else (.decimal, []) := by
  by_cases hc : c = '0'
  · subst hc
    rfl
  · rw [if_neg hc]
    unfold radixMark
    split
    · next heq => exact absurd (List.cons.inj heq).1 hc
    · rfl

theorem radixMark_of_parted (c : Char) {rest : List Char} (h : Parted rest) :
    radixMark (c :: rest) = (.decimal, []) := by
  cases rest with
  | nil =>
      unfold radixMark
      split
      · next heq => exact absurd (List.cons.inj heq).2 (by simp)
      · rfl
  | cons d more =>
      have hd : d ≠ 'x' ∧ d ≠ 'X' := by
        constructor <;> rintro rfl <;> exact h.head?_ne (by decide) rfl
      have hdigit : Radix.octal.isDigit d = false := radix_isDigit_of_partsWords (h d rfl) _
      rw [radixMark_cons_cons, if_neg (not_or.2 hd), hdigit]
      exact ite_self _

theorem radixMark_append {w tail rest : List Char} (hne : w ≠ []) (h : Parted rest)
    (hshort : w.length = 1 → radixMark (w ++ tail) = (.decimal, [])) :
    radixMark (w ++ rest) = radixMark (w ++ tail) := by
  match w, hne with
  | [c], _ =>
      rw [hshort rfl]
      exact radixMark_of_parted c h
  | c :: d :: w, _ =>
      simp only [List.cons_append, radixMark_cons_cons]

/-- How a numeral stands at the front of a text, if nothing is glued to it. -/
structure Taken (n : Numeral) (rest : List Char) : Prop where
  mark : radixMark (n.text ++ rest) = (n.radix, n.mark)
  digits : ∀ c ∈ n.digits, n.radix.isDigit c = true
  stop : ∀ c ∈ (n.parts.flatMap NumeralPart.text ++ rest).head?, n.radix.isDigit c = false
  parts : chunks (NumeralPart.read? n.radix) (·.text.length)
    (n.parts.flatMap NumeralPart.text ++ rest) = n.parts
  glued : n.glued = []

theorem taken_ofText {text : List Char} (h : (ofText text).glued = []) :
    ∃ rest, text = (ofText text).text ++ rest ∧ (ofText text).Taken rest := by
  obtain ⟨rest, hsplit⟩ := ofText_isPrefix text
  rw [h, List.append_nil] at hsplit
  refine ⟨rest, hsplit.symm, ?_⟩
  generalize hn : ofText text = n at h hsplit
  have hmark : radixMark text = (n.radix, n.mark) := by rw [← hn]; rfl
  have hdigits : n.digits = (text.drop n.mark.length).takeWhile n.radix.isDigit := by
    rw [← hn]; rfl
  have hparts : n.parts = chunks (NumeralPart.read? n.radix) (·.text.length)
      ((text.drop n.mark.length).drop n.digits.length) := by rw [← hn]; rfl
  have hafter : text.drop n.mark.length =
      n.digits ++ (n.parts.flatMap NumeralPart.text ++ rest) := by
    rw [← hsplit, Numeral.text, List.append_assoc, List.append_assoc, List.drop_left]
  have hrun : (text.drop n.mark.length).dropWhile n.radix.isDigit =
      n.parts.flatMap NumeralPart.text ++ rest := by
    have hjoin : n.digits ++ (text.drop n.mark.length).dropWhile n.radix.isDigit =
        text.drop n.mark.length := by
      rw [hdigits]
      exact List.takeWhile_append_dropWhile
    exact List.append_cancel_left (hjoin.trans hafter)
  refine ⟨by rw [hsplit, hmark], ?_, ?_, ?_, h⟩
  · rw [hdigits]
    exact fun _ => List.mem_takeWhile_imp
  · rw [← hrun]
    intro c hc
    have hstop := List.head?_dropWhile_not n.radix.isDigit (text.drop n.mark.length)
    rw [Option.mem_def.1 hc] at hstop
    simpa using hstop
  · rw [hafter, List.drop_left] at hparts
    exact hparts.symm

theorem Taken.ofText_eq {n : Numeral} {rest : List Char} (h : n.Taken rest)
    (hrest : ∀ c ∈ rest.head?, isWordChar c = false) : ofText (n.text ++ rest) = n := by
  have hdigits := takeWhile_append_of_front h.digits h.stop
  have hglued : rest.takeWhile isWordChar = [] := by
    show ([] ++ rest).takeWhile isWordChar = []
    exact takeWhile_append_of_front (List.forall_mem_nil _) hrest
  have hassoc : n.text ++ rest =
      n.mark ++ (n.digits ++ (n.parts.flatMap NumeralPart.text ++ rest)) := by
    simp only [Numeral.text, List.append_assoc]
  have hmark := h.mark
  rw [hassoc] at hmark ⊢
  simp only [ofText, hmark, List.drop_left, hdigits, h.parts, hglued, ← h.glued]

theorem Taken.radixMark_eq {n : Numeral} {rest : List Char} (h : n.Taken rest)
    (hlength : n.text.length = 1) : radixMark (n.text ++ rest) = (.decimal, []) := by
  rcases radixMark_cases (n.text ++ rest) with hne | hmark
  · have hmark := h.mark
    have hstop := h.stop
    rw [hmark] at hne
    have hpos : 0 < n.mark.length := List.length_pos_iff.2 hne
    simp only [Numeral.text, List.length_append] at hlength
    have hdigits : n.digits = [] := List.length_eq_zero_iff.1 (by omega)
    have hparts : n.parts.flatMap NumeralPart.text = [] := List.length_eq_zero_iff.1 (by omega)
    have hone : n.mark.length = 1 := by omega
    obtain ⟨m, hm⟩ := List.length_eq_one_iff.1 hone
    have htext : n.text = [m] := by
      rw [Numeral.text, hdigits, hparts, List.append_nil, List.append_nil, hm]
    rw [htext, hm] at hmark
    rw [hparts, List.nil_append] at hstop
    cases rest with
    | nil =>
        have hnil : Parted [] := by simp [Parted]
        rw [List.append_nil, radixMark_of_parted m hnil] at hmark
        exact absurd (congrArg Prod.snd hmark) (by simp)
    | cons d more =>
        rw [List.singleton_append, radixMark_cons_cons] at hmark
        -- Only the octal mark is one character, and then an octal digit follows it.
        split at hmark
        · split at hmark
          · exact absurd (congrArg Prod.snd hmark) (by simp)
          · split at hmark
            · next hoctal =>
              have hradix : .octal = n.radix := congrArg Prod.fst hmark
              have hd := hstop d rfl
              rw [← hradix, hoctal] at hd
              exact absurd hd (by decide)
            · exact absurd (congrArg Prod.snd hmark) (by simp)
        · exact absurd (congrArg Prod.snd hmark) (by simp)
  · exact hmark

/-- What it takes for a numeral to have no faults. -/
theorem faults_eq_nil {n : Numeral} {after : List Char} :
    n.faults after = [] ↔ n.glued = [] ∧ (n.radix = .hexadecimal → n.digits ≠ []) ∧
      NumeralPart.faults n.radix after false false (n.mark.length + n.digits.length) n.parts =
        [] := by
  constructor
  · intro h
    have hglued := glued_of_faults_nil h
    simp only [faults, hglued, List.nil_append] at h
    simpa [hglued] using h
  · rintro ⟨hglued, hbare, hparts⟩
    simp only [faults, hglued, List.nil_append, hparts]
    simpa using hbare

/-- A numeral without faults that stands at the front of a text also stands, without faults,
where what follows it is parted from it. -/
theorem Taken.parted {n : Numeral} {tail after rest : List Char} (h : n.Taken tail)
    (hne : n.text ≠ []) (hfaults : n.faults after = []) (hrest : Parted rest)
    (hformed : ∀ part ∈ n.parts, part.Formed n.radix) : n.Taken rest ∧ n.faults rest = [] := by
  obtain ⟨hglued, hbare, hparts⟩ := faults_eq_nil.1 hfaults
  obtain ⟨hcomplete, hafter⟩ := NumeralPart.of_faults_nil hformed hparts
  refine ⟨⟨?_, h.digits, ?_, ?_, hglued⟩, faults_eq_nil.2 ⟨hglued, hbare, hafter rest⟩⟩
  · rw [radixMark_append hne hrest h.radixMark_eq, h.mark]
  · have hstop := h.stop
    cases htext : n.parts.flatMap NumeralPart.text with
    | nil => exact fun c hc => radix_isDigit_of_partsWords (hrest c hc) _
    | cons c more =>
        rw [htext] at hstop
        exact hstop
  · cases hlist : n.parts with
    | nil => exact chunks_of_none (NumeralPart.read?_of_parted hrest)
    | cons part parts =>
        have hradix := (hcomplete part (by simp [hlist])).1
        rw [hradix] at hformed ⊢
        rw [← hlist]
        exact NumeralPart.chunks_append (NumeralPart.noDigit_of_parted hrest)
          (NumeralPart.read?_of_parted hrest) fun part hpart =>
            ⟨hformed part hpart, (hcomplete part hpart).2⟩

theorem formed_ofText (text : List Char) :
    ∀ part ∈ (ofText text).parts, part.Formed (ofText text).radix := by
  intro part hpart
  obtain ⟨_, hread⟩ := mem_chunks hpart
  exact NumeralPart.read?_formed hread

theorem read_append {c : Char} {text rest w : List Char} {l : Lexeme} (hc : c.isDigit = true)
    (hrest : Parted rest) (hread : read (c :: text) = ⟨w, .word l⟩) :
    read (w ++ rest) = ⟨w, .word l⟩ := by
  have hne : (ofText (c :: text)).text ≠ [] := ofText_text_ne_nil hc
  unfold read at hread
  dsimp only at hread
  split at hread
  · next hfaults =>
    have hglued := glued_of_faults_nil hfaults
    obtain ⟨tail, -, htaken⟩ := taken_ofText hglued
    obtain ⟨hthere, hnone⟩ := htaken.parted hne hfaults hrest (formed_ofText _)
    rw [hglued, List.append_nil] at hread
    obtain ⟨rfl, hvalue⟩ := Segment.mk.inj hread
    have hsame := hthere.ofText_eq fun c hc => isWordChar_of_partsWords (hrest c hc)
    simp only [read, hsame, hglued, List.append_nil, List.drop_left, hnone]
    rw [hvalue]
  · exact absurd (congrArg Segment.content hread) (by simp)

end Numeral

/-! ## Any word -/

theorem Gap.read?_eq_none {c : Char} {rest : List Char} (hc : partsWords c = false) :
    Gap.read? (c :: rest) = none := by
  obtain ⟨hblank, hslash⟩ := Bool.or_eq_false_iff.1 hc
  rw [beq_eq_false_iff_ne] at hslash
  unfold Gap.read?
  split
  · next heq => exact absurd (List.cons.inj heq).1 hslash
  · next heq => exact absurd (List.cons.inj heq).1 hslash
  · next heq =>
    obtain ⟨rfl, -⟩ := List.cons.inj heq
    rw [hblank]
    rfl
  · rfl

theorem Gap.read?_ne_word {text w : List Char} {l : Lexeme} :
    Gap.read? text ≠ some ⟨w, .word l⟩ := by
  unfold Gap.read?
  split
  · simp [lineComment]
  · unfold blockComment
    split <;> simp
  · split <;> simp
  · simp

namespace Segment

theorem ofFirst_ne_word {c : Char} {rest w : List Char} {l : Lexeme}
    (hc : partsWords c = true) : ofFirst c rest ≠ ⟨w, .word l⟩ := by
  have hbegins : ¬ Word.begins c = true := by
    intro h
    have hword := Word.isWordChar_of_begins h
    rw [isWordChar_of_partsWords hc] at hword
    exact absurd hword (by decide)
  have hdigit : ¬ c.isDigit = true := by
    rw [isDigit_of_partsWords hc]
    decide
  have hmark : ∀ q : Quote, c ≠ q.mark := by
    rintro q rfl
    exact absurd hc (by cases q <;> decide)
  have hpair : ∀ d, Symbol.spelled? [c, d] = none := fun d =>
    Symbol.spelled?_eq_none (List.mem_cons_self ..) hc
  have hone : Symbol.spelled? [c] = none := Symbol.spelled?_eq_none (List.mem_cons_self ..) hc
  rw [ofFirst, if_neg hbegins, if_neg hdigit, if_neg (hmark _), if_neg (hmark _)]
  cases rest <;> simp [Symbol.read, hpair, hone]

/-- A word is read the same where what follows it is parted from it. -/
theorem read?_append {text rest w : List Char} {l : Lexeme} (hrest : Parted rest)
    (hread : read? text = some ⟨w, .word l⟩) : read? (w ++ rest) = some ⟨w, .word l⟩ := by
  obtain ⟨after, hfronts⟩ := read?_fronts hread
  obtain ⟨c, v, rfl⟩ : ∃ c v, w = c :: v := List.exists_cons_of_ne_nil hfronts.nonempty
  have htext : text = c :: (v ++ after) := hfronts.split
  subst htext
  rcases Option.or_eq_some_iff.1 hread with hgap | ⟨-, hfirst⟩
  · exact absurd hgap Gap.read?_ne_word
  · have hfirst : ofFirst c (v ++ after) = ⟨c :: v, .word l⟩ := Option.some.inj hfirst
    have hc : partsWords c = false := by
      rw [← Bool.not_eq_true]
      exact fun hc => ofFirst_ne_word hc hfirst
    have hsame : ofFirst c (v ++ rest) = ⟨c :: v, .word l⟩ := by
      unfold ofFirst at hfirst ⊢
      split
      · next hword =>
        rw [if_pos hword] at hfirst
        exact Word.read_append hrest hfirst
      · next hword =>
        rw [if_neg hword] at hfirst
        split
        · next hdigit =>
          rw [if_pos hdigit] at hfirst
          exact Numeral.read_append hdigit hrest hfirst
        · next hdigit =>
          rw [if_neg hdigit] at hfirst
          split
          · next hmark =>
            subst hmark
            rw [if_pos rfl] at hfirst
            exact Quote.read_append hfirst
          · next hmark =>
            rw [if_neg hmark] at hfirst
            split
            · next hmark =>
              subst hmark
              rw [if_pos rfl] at hfirst
              exact Quote.read_append hfirst
            · next hmark =>
              rw [if_neg hmark] at hfirst
              exact Symbol.read_append hrest hfirst
    rw [List.cons_append, read?, Gap.read?_eq_none hc, hsame]
    rfl

end Segment

end MiniJava.Lexical
