import MiniJava.Proofs.Lexical.Spacing
/-!
# Reading before a newline

What is read at the end of a source is read the same, but for one message, where a newline and any
text follow.  Only a comment or a literal that the end of the source cuts short goes on there, and
only an exponent without digits tells what it finds in their place.
-/

namespace MiniJava.Lexical

open Text

/-- What is wrong where the end of the source cuts a comment or a literal short. -/
def Cause.unclosed : List Cause := [.unclosedComment, .unclosedChar, .unclosedString]

/-- The cause that is found in place of one if a newline follows the text. -/
def Cause.beforeNewline : Cause → Cause
  | .noExponentDigit found => .noExponentDigit (found.or (some '\n'))
  | cause => cause

def Fault.beforeNewline (f : Fault) : Fault := { f with cause := f.cause.beforeNewline }

theorem Fault.map_beforeNewline_one {p : Prop} [Decidable p] {n : Nat} {cause : Cause}
    (h : cause.beforeNewline = cause) :
    (if p then [(⟨n, cause⟩ : Fault)] else []).map beforeNewline =
      if p then [⟨n, cause⟩] else [] := by
  split
  · simp only [List.map_cons, List.map_nil, beforeNewline, h]
  · rfl

def Content.beforeNewline : Content → Content
  | .malformed first others => .malformed first.beforeNewline (others.map Fault.beforeNewline)
  | content => content

def Segment.beforeNewline (g : Segment) : Segment := { g with content := g.content.beforeNewline }

def Content.Closed : Content → Prop
  | .malformed first _ => first.cause ∉ Cause.unclosed
  | _ => True

theorem head?_newline (s t : List Char) : (s ++ '\n' :: t).head? = s.head?.or (some '\n') := by
  cases s <;> rfl

theorem takeWhile_newline {p : Char → Bool} (hp : p '\n' = false) (s t : List Char) :
    (s ++ '\n' :: t).takeWhile p = s.takeWhile p := by
  induction s with
  | nil => exact List.takeWhile_cons_of_neg (by simp [hp])
  | cons c s ih => simp only [List.cons_append, List.takeWhile_cons, ih]

theorem parted_newline (t : List Char) : Parted ('\n' :: t) := by
  rintro c hc
  obtain rfl := Option.some.inj hc
  decide

/-! ## Gaps -/

namespace Gap

theorem read?_cons {c : Char} {rest : List Char}
    (h : c = '/' → rest.head? ≠ some '/' ∧ rest.head? ≠ some '*') :
    read? (c :: rest) = if isBlank c then some ⟨[c], .gap⟩ else none := by
  unfold read?
  split
  · next heq =>
    obtain ⟨rfl, rfl⟩ := List.cons.inj heq
    exact absurd rfl (h rfl).1
  · next heq =>
    obtain ⟨rfl, rfl⟩ := List.cons.inj heq
    exact absurd rfl (h rfl).2
  · next heq =>
    obtain ⟨rfl, rfl⟩ := List.cons.inj heq
    rfl
  · next heq => exact absurd heq (List.cons_ne_nil _ _)

theorem blockComment_newline {rest : List Char} (h : (blockComment rest).content.Closed)
    (t : List Char) : blockComment (rest ++ '\n' :: t) = (blockComment rest).beforeNewline := by
  unfold blockComment at h ⊢
  cases hclose : throughClose? rest with
  | none =>
      rw [hclose] at h
      exact absurd (by decide) h
  | some found =>
      obtain ⟨body, more, rfl, rfl, hbody⟩ := throughClose?_eq hclose
      have hlonger := throughClose?_append hbody (more ++ '\n' :: t)
      simp only [List.append_assoc, List.cons_append, List.nil_append] at hlonger ⊢
      rw [hlonger]
      rfl

theorem read?_newline {c : Char} {rest : List Char}
    (h : ∀ g, read? (c :: rest) = some g → g.content.Closed) (t : List Char) :
    read? (c :: (rest ++ '\n' :: t)) = (read? (c :: rest)).map Segment.beforeNewline := by
  by_cases hcomment : c = '/' → rest.head? ≠ some '/' ∧ rest.head? ≠ some '*'
  · have hlonger : c = '/' → (rest ++ '\n' :: t).head? ≠ some '/' ∧
        (rest ++ '\n' :: t).head? ≠ some '*' := by
      intro hc
      rw [head?_newline]
      cases rest with
      | nil => exact ⟨by decide, by decide⟩
      | cons => exact hcomment hc
    rw [read?_cons hlonger, read?_cons hcomment]
    split <;> rfl
  · simp only [Classical.not_imp, not_and_or, not_not] at hcomment
    obtain ⟨rfl, hrest⟩ := hcomment
    cases rest with
    | nil => exact absurd hrest (by decide)
    | cons d more =>
        rcases hrest with hd | hd <;> obtain rfl := Option.some.inj hd
        · show some (lineComment (more ++ '\n' :: t)) = some (lineComment more).beforeNewline
          rw [lineComment, takeWhile_newline (by decide)]
          rfl
        · exact congrArg some (blockComment_newline (h _ rfl) t)

end Gap

/-! ## Words -/

theorem prefix_of_prefix_append {l s t : List Char} {c : Char} (hc : c ∉ l)
    (h : l <+: s ++ c :: t) : l <+: s := by
  rcases List.prefix_or_prefix_of_prefix h (List.prefix_append s (c :: t)) with hl | ⟨m, rfl⟩
  · exact hl
  · cases m with
    | nil => simp
    | cons d m =>
        obtain ⟨rfl, -⟩ := List.cons_prefix_cons.1 ((List.prefix_append_right_inj s).1 h)
        exact absurd (by simp) hc

namespace Word

theorem atBoundary_newline (s t : List Char) : atBoundary (s ++ '\n' :: t) = atBoundary s := by
  cases s <;> rfl

theorem continuesPrint_newline (s t : List Char) :
    continuesPrint (s ++ '\n' :: t) = continuesPrint s := by
  unfold continuesPrint
  by_cases h : printTail <+: s
  · obtain ⟨rest, rfl⟩ := h
    rw [List.append_assoc, List.drop_left, List.drop_left, atBoundary_newline,
      List.isPrefixOf_iff_prefix.2 (List.prefix_append _ _),
      List.isPrefixOf_iff_prefix.2 (List.prefix_append _ _)]
  · have hlonger : ¬ printTail <+: s ++ '\n' :: t := mt (prefix_of_prefix_append (by decide)) h
    rw [← List.isPrefixOf_iff_prefix, Bool.not_eq_true] at h hlonger
    rw [h, hlonger, Bool.false_and, Bool.false_and]

theorem extent_newline (s t : List Char) : extent (s ++ '\n' :: t) = extent s := by
  have hrun := (List.takeWhile_prefix isWordChar (l := s)).length_le
  unfold extent
  dsimp only
  rw [takeWhile_newline (by decide), List.drop_append_of_le_length hrun, continuesPrint_newline]

theorem read_newline (s t : List Char) : read (s ++ '\n' :: t) = (read s).beforeNewline := by
  unfold read
  rw [extent_newline]
  dsimp only
  split <;> rfl

end Word

/-! ## Quoted literals -/

namespace Quote

theorem content_beforeNewline (q : Quote) (body : List Char) :
    (q.content body).beforeNewline = q.content body := by
  unfold content
  split <;> rfl

theorem read_newline {q : Quote} {rest : List Char} (h : (q.read rest).content.Closed)
    (t : List Char) : q.read (rest ++ '\n' :: t) = (q.read rest).beforeNewline := by
  unfold read at h ⊢
  cases hbody : q.body? rest with
  | none =>
      rw [hbody] at h
      exact absurd (by cases q <;> decide) h
  | some body =>
      obtain ⟨more, rfl⟩ := body?_eq hbody
      rw [List.append_assoc, List.cons_append, body?_append hbody]
      exact congrArg (Segment.mk _) (q.content_beforeNewline body).symm

end Quote

/-! ## Operators and delimiters -/

namespace Symbol

theorem read_newline (c : Char) (rest t : List Char) :
    read c (rest ++ '\n' :: t) = (read c rest).beforeNewline := by
  have hsame : read c (rest ++ '\n' :: t) = read c rest := by
    cases rest with
    | nil =>
        have hpair : spelled? [c, '\n'] = none := spelled?_eq_none (c := '\n') (by simp) (by decide)
        simp only [read, List.nil_append, hpair]
    | cons d more => rfl
  rw [hsame]
  rcases read_cases c rest with ⟨text, hspelled⟩ | hunknown
  · rw [spelled?_eq hspelled]
    rfl
  · rw [hunknown]
    rfl

end Symbol

/-! ## Numbers -/

theorem chunks_before {α : Type} {read? : List Char → Option α} {width : α → Nat} {t : List Char}
    (hsame : ∀ s, s ≠ [] → read? (s ++ t) = read? s) (hnone : read? t = none)
    (hwidth : ∀ s a, read? s = some a → width a ≤ s.length) (s : List Char) :
    chunks read? width (s ++ t) = chunks read? width s := by
  have hafter : ∀ (s : List Char) (skip : Nat), skip ≤ s.length →
      chunksAfter read? width skip (s ++ t) = chunksAfter read? width skip s := by
    intro s
    induction s with
    | nil =>
        intro skip hskip
        obtain rfl := Nat.le_zero.1 hskip
        exact chunks_of_none hnone
    | cons c s ih =>
        intro skip hskip
        cases skip with
        | succ skip => exact ih skip (Nat.le_of_succ_le_succ hskip)
        | zero =>
            have hread := hsame (c :: s) (List.cons_ne_nil _ _)
            rw [List.cons_append] at hread ⊢
            rw [chunksAfter, chunksAfter, hread]
            cases hpiece : read? (c :: s) with
            | none => rfl
            | some a =>
                have hle := hwidth _ _ hpiece
                rw [List.length_cons] at hle
                exact congrArg (a :: ·) (ih _ (by omega))
  exact hafter s 0 (Nat.zero_le _)

namespace NumeralPart

theorem readExponent_newline (mark : Char) (s t : List Char) :
    readExponent mark (s ++ '\n' :: t) = readExponent mark s := by
  have hdigits : ∀ s : List Char, (s ++ '\n' :: t).takeWhile Char.isDigit =
      s.takeWhile Char.isDigit := fun s => takeWhile_newline (by decide) s t
  unfold readExponent
  split
  · next heq =>
    cases s with
    | nil => exact absurd (List.cons.inj heq).1 (by decide)
    | cons c s =>
        obtain ⟨rfl, rfl⟩ := List.cons.inj heq
        simp [hdigits]
  · next heq =>
    cases s with
    | nil => exact absurd (List.cons.inj heq).1 (by decide)
    | cons c s =>
        obtain ⟨rfl, rfl⟩ := List.cons.inj heq
        simp [hdigits]
  · next hplus hminus =>
    split
    · next rest => exact absurd rfl (hplus (rest ++ '\n' :: t))
    · next rest => exact absurd rfl (hminus (rest ++ '\n' :: t))
    · rw [hdigits]

theorem read?_newline (radix : Radix) {s : List Char} (hne : s ≠ []) (t : List Char) :
    read? radix (s ++ '\n' :: t) = read? radix s := by
  cases s with
  | nil => exact absurd rfl hne
  | cons c s =>
      have hdigit : ((s ++ '\n' :: t).head?.map Char.isDigit).getD false =
          (s.head?.map Char.isDigit).getD false := by
        cases s <;> rfl
      rw [List.cons_append, read?, read?, hdigit, takeWhile_newline (by decide),
        readExponent_newline]

theorem chunks_newline (radix : Radix) (s t : List Char) :
    chunks (read? radix) (·.text.length) (s ++ '\n' :: t) =
      chunks (read? radix) (·.text.length) s :=
  chunks_before (fun _ hne => read?_newline radix hne t) (read?_of_parted (parted_newline t))
    (fun _ _ hread => (read?_isPrefix hread).1.length_le) s

theorem faults_newline (radix : Radix) (after t : List Char) (hasFraction hasExponent : Bool)
    (offset : Nat) (parts : List NumeralPart) :
    faults radix (after ++ '\n' :: t) hasFraction hasExponent offset parts =
      (faults radix after hasFraction hasExponent offset parts).map Fault.beforeNewline := by
  induction parts generalizing hasFraction hasExponent offset with
  | nil => rfl
  | cons part parts ih =>
      cases part with
      | fraction digits =>
          simp only [faults, ih, List.map_append,
            Fault.map_beforeNewline_one (show Cause.secondDot.beforeNewline = _ from rfl),
            Fault.map_beforeNewline_one (show Cause.dotAfterExponent.beforeNewline = _ from rfl)]
          cases radix <;> rfl
      | exponent mark sign digits =>
          simp only [faults, ih, List.map_append, ← List.append_assoc, head?_newline,
            Fault.map_beforeNewline_one (show Cause.secondExponent.beforeNewline = _ from rfl)]
          cases digits.isEmpty <;> rfl

end NumeralPart

namespace Numeral

theorem radixMark_newline {s : List Char} (hne : s ≠ []) (t : List Char) :
    radixMark (s ++ '\n' :: t) = radixMark s := by
  match s, hne with
  | [c], _ =>
      rw [List.singleton_append, radixMark_of_parted c (parted_newline t),
        radixMark_of_parted c (by simp [Parted])]
  | c :: d :: more, _ => rw [List.cons_append, List.cons_append, radixMark_cons_cons,
      radixMark_cons_cons]

theorem ofText_newline {s : List Char} (hne : s ≠ []) (t : List Char) :
    ofText (s ++ '\n' :: t) = ofText s := by
  unfold ofText
  rw [radixMark_newline hne]
  obtain ⟨rest, hrest⟩ := radixMark_isPrefix s
  generalize radixMark s = announced at hrest ⊢
  obtain ⟨radix, mark⟩ := announced
  have hdigits : ∀ s : List Char, (s ++ '\n' :: t).takeWhile radix.isDigit =
      s.takeWhile radix.isDigit :=
    fun s => takeWhile_newline (radix_isDigit_of_partsWords (by decide) radix) s t
  subst hrest
  dsimp only
  rw [List.append_assoc, List.drop_left, List.drop_left, hdigits]
  have hrun := (List.takeWhile_prefix radix.isDigit (l := rest)).length_le
  rw [List.drop_append_of_le_length hrun, NumeralPart.chunks_newline]
  have hparts := (chunks_flatMap_isPrefix (NumeralPart.advances_read? radix)
    (rest.drop (rest.takeWhile radix.isDigit).length)).length_le
  rw [List.drop_append_of_le_length hparts, takeWhile_newline (by decide)]

theorem faults_newline (n : Numeral) (after t : List Char) :
    n.faults (after ++ '\n' :: t) = (n.faults after).map Fault.beforeNewline := by
  unfold faults
  dsimp only
  rw [← List.append_assoc, NumeralPart.faults_newline]
  conv_lhs => rw [← Fault.map_beforeNewline_one rfl, ← List.map_append]
  generalize _ ++ NumeralPart.faults _ _ _ _ _ _ = found
  simp only [List.map_eq_nil_iff]
  split <;> rfl

theorem value_beforeNewline (n : Numeral) : n.value.beforeNewline = n.value := by
  unfold value
  dsimp only
  split
  · split <;> rfl
  · split
    · rfl
    · split <;> rfl

theorem read_newline {s : List Char} (hne : s ≠ []) (t : List Char) :
    read (s ++ '\n' :: t) = (read s).beforeNewline := by
  have hcovered := (ofText_isPrefix s).length_le
  unfold read
  dsimp only
  rw [ofText_newline hne, List.drop_append_of_le_length hcovered, faults_newline]
  cases (ofText s).faults _ with
  | nil => exact congrArg (Segment.mk _) (ofText s).value_beforeNewline.symm
  | cons first others => rfl

end Numeral

/-! ## Whole texts -/

namespace Segment

theorem ofFirst_newline {c : Char} {rest : List Char} (h : (ofFirst c rest).content.Closed)
    (t : List Char) : ofFirst c (rest ++ '\n' :: t) = (ofFirst c rest).beforeNewline := by
  have hne : c :: rest ≠ [] := List.cons_ne_nil _ _
  unfold ofFirst at h ⊢
  split
  · exact Word.read_newline (c :: rest) t
  · next hword =>
    rw [if_neg hword] at h
    split
    · exact Numeral.read_newline hne t
    · next hdigit =>
      rw [if_neg hdigit] at h
      split
      · next hchar =>
        rw [if_pos hchar] at h
        exact Quote.read_newline h t
      · next hchar =>
        rw [if_neg hchar] at h
        split
        · next hstring =>
          rw [if_pos hstring] at h
          exact Quote.read_newline h t
        · exact Symbol.read_newline c rest t

theorem read?_newline {s : List Char} {g : Segment} (h : read? s = some g)
    (hclosed : g.content.Closed) (t : List Char) :
    read? (s ++ '\n' :: t) = some g.beforeNewline := by
  cases s with
  | nil => exact absurd h nofun
  | cons c rest =>
      show (Gap.read? (c :: (rest ++ '\n' :: t))).or (some (ofFirst c (rest ++ '\n' :: t))) = _
      rcases Option.or_eq_some_iff.1 h with hgap | ⟨hgap, hfirst⟩
      · have hclosed : ∀ g', Gap.read? (c :: rest) = some g' → g'.content.Closed := by
          intro g' hg'
          obtain rfl := Option.some.inj (hgap.symm.trans hg')
          exact hclosed
        rw [Gap.read?_newline hclosed, hgap]
        rfl
      · obtain rfl := Option.some.inj hfirst
        rw [Gap.read?_newline (by simp [hgap]), hgap, ofFirst_newline hclosed]
        rfl

end Segment

/-- The segments of a text in which nothing is left open, then the newline, then the segments of
what follows. -/
theorem Segmented.segments_newline {text : List Char} {gs : List Segment} (h : Segmented text gs)
    (hclosed : ∀ g ∈ gs, g.content.Closed) (t : List Char) :
    segments (text ++ '\n' :: t) =
      gs.map Segment.beforeNewline ++ Segment.gap ['\n'] :: segments t := by
  induction h with
  | nil => exact Gap.segments_blank (by decide) t
  | @cons text rest g gs read fronts _ ih =>
      obtain ⟨hg, hgs⟩ := List.forall_mem_cons.1 hclosed
      have hread := Segment.read?_newline read hg t
      rw [fronts.split, List.append_assoc] at hread ⊢
      rw [List.map_cons, List.cons_append, ← ih hgs]
      exact Lexical.segments_append (g := g.beforeNewline) fronts.nonempty hread

end MiniJava.Lexical
