import MiniJava.Proofs.Json.Indentation
import MiniJava.Proofs.Lexical.QuotedLiteral
/-!
# The layout as a normal form

Blanks outside quoted strings carry no meaning.  A text and its layout differ in nothing else, and
texts that differ in nothing else have one layout, whether their brackets match and their strings
end or not.
-/

namespace MiniJava.Json

open MiniJava.Lexical MiniJava.Text

/-! ## The parts of a text -/

/-- What stands at the front of a text: a string with its quotes, which goes on to the end of the
text if it is never closed, or a single character. -/
def part? : List Char → Option (List Char)
  | [] => none
  | c :: rest => some (if c = '\x22' then (Quote.string.read rest).text else [c])

def parts (text : List Char) : List (List Char) := chunks part? List.length text

/-- A text without the blanks outside its strings. -/
def strip (text : List Char) : List Char :=
  ((parts text).filter fun part => !part.all isBlank).flatten

def quotations (text : List Char) : List (List Char) :=
  (parts text).filter fun part => part.head? == some '\x22'

section

variable {c : Char} {text body rest : List Char}

theorem parts_character (h : c ≠ '\x22') (rest : List Char) :
    parts (c :: rest) = [c] :: parts rest := by
  have hread : part? (c :: rest) = some [c] := by
    rw [part?, if_neg h]
  rw [parts, chunks_of_some (List.cons_ne_nil _ _) hread Nat.one_pos]
  rfl

theorem parts_quoted (h : Quote.string.Closes text body rest) :
    parts ('\x22' :: text) = ('\x22' :: (body ++ ['\x22'])) :: parts rest := by
  have hread : part? ('\x22' :: text) = some ('\x22' :: (body ++ ['\x22'])) := by
    rw [part?, if_pos rfl, Quote.read_of_closes h]
    rfl
  have hrest : ('\x22' :: text).drop ('\x22' :: (body ++ ['\x22'])).length = rest := by
    rw [h.split]
    simp
  rw [parts, chunks_of_some (List.cons_ne_nil _ _) hread (Nat.succ_pos _), hrest]
  rfl

theorem parts_unclosed (h : ¬ ∃ body rest, Quote.string.Closes text body rest) :
    parts ('\x22' :: text) = ['\x22' :: text] := by
  have hread : part? ('\x22' :: text) = some ('\x22' :: text) := by
    rw [part?, if_pos rfl, Quote.read_of_open h]
    rfl
  rw [parts, chunks_of_some (List.cons_ne_nil _ _) hread (Nat.succ_pos _), List.drop_length,
    chunks_nil]

/-- A text is empty, or it begins with a blank, another character, a string that is closed or one
that is not. -/
theorem parts_induction {motive : List Char → Prop} (nil : motive [])
    (blank : ∀ c rest, isBlank c = true → motive rest → motive (c :: rest))
    (sign : ∀ c rest, isBlank c = false → c ≠ '\x22' → motive rest → motive (c :: rest))
    (quoted : ∀ text body rest, Quote.string.Closes text body rest → motive rest →
      motive ('\x22' :: text))
    (unclosed : ∀ text, (¬ ∃ body rest, Quote.string.Closes text body rest) →
      motive ('\x22' :: text))
    (text : List Char) : motive text := by
  induction hn : text.length using Nat.strongRecOn generalizing text with
  | ind n ih =>
      subst hn
      cases text with
      | nil => exact nil
      | cons c rest =>
          have hlater : motive rest := ih _ (Nat.lt_succ_self _) rest rfl
          cases hblank : isBlank c with
          | true => exact blank c rest hblank hlater
          | false =>
              by_cases hquote : c = '\x22'
              · subst hquote
                by_cases hclosed : ∃ body after, Quote.string.Closes rest body after
                · obtain ⟨body, after, h⟩ := hclosed
                  refine quoted rest body after h (ih _ ?_ after rfl)
                  rw [h.split]
                  simp only [List.length_cons, List.length_append]
                  omega
                · exact unclosed rest hclosed
              · exact sign c rest hblank hquote hlater

/-! ## Stripped texts -/

theorem parts_blank (h : isBlank c = true) (rest : List Char) :
    parts (c :: rest) = [c] :: parts rest := by
  refine parts_character ?_ rest
  rintro rfl
  exact absurd h (by decide)

theorem strip_blank (h : isBlank c = true) (rest : List Char) : strip (c :: rest) = strip rest := by
  rw [strip, parts_blank h, List.filter_cons_of_neg (by simp [h]), strip]

theorem strip_sign (hblank : isBlank c = false) (hquote : c ≠ '\x22') (rest : List Char) :
    strip (c :: rest) = c :: strip rest := by
  rw [strip, parts_character hquote, List.filter_cons_of_pos (by simp [hblank]),
    List.flatten_cons, strip]
  rfl

theorem isBlank_quote : isBlank '\x22' = false := rfl

theorem strip_quoted (h : Quote.string.Closes text body rest) :
    strip ('\x22' :: text) = '\x22' :: (body ++ '\x22' :: strip rest) := by
  rw [strip, parts_quoted h, List.filter_cons_of_pos (by simp [isBlank_quote]),
    List.flatten_cons, strip]
  simp

theorem strip_unclosed (h : ¬ ∃ body rest, Quote.string.Closes text body rest) :
    strip ('\x22' :: text) = '\x22' :: text := by
  rw [strip, parts_unclosed h, List.filter_cons_of_pos (by simp [isBlank_quote])]
  simp

example : strip "[ 1, \"a b".toList = "[1,\"a b".toList := by decide +kernel

theorem isBlank_of_isSpace (h : isSpace c = true) : isBlank c = true := by
  simp only [isSpace, Bool.or_eq_true, beq_iff_eq] at h
  rcases h with ((rfl | rfl) | rfl) | rfl <;> decide

theorem strip_spaces {spaces : List Char} (h : Spaces spaces) (text : List Char) :
    strip (spaces ++ text) = strip text := by
  induction spaces with
  | nil => rfl
  | cons c spaces ih =>
      obtain ⟨hc, hspaces⟩ := List.forall_mem_cons.1 h
      rw [List.cons_append, strip_blank (isBlank_of_isSpace hc), ih hspaces]

/-- Stripping takes out whole parts and leaves the others as they are. -/
theorem parts_strip (text : List Char) :
    parts (strip text) = (parts text).filter fun part => !part.all isBlank := by
  induction text using parts_induction with
  | nil => rfl
  | blank c rest hblank ih =>
      rw [strip_blank hblank, ih, parts_blank hblank, List.filter_cons_of_neg (by simp [hblank])]
  | sign c rest hblank hquote ih =>
      rw [strip_sign hblank hquote, parts_character hquote, ih, parts_character hquote,
        List.filter_cons_of_pos (by simp [hblank])]
  | quoted text body rest h ih =>
      have hstripped : Quote.string.Closes (body ++ '\x22' :: strip rest) body (strip rest) :=
        ⟨h.items, rfl⟩
      rw [strip_quoted h, parts_quoted hstripped, ih, parts_quoted h,
        List.filter_cons_of_pos (by simp [isBlank_quote])]
  | unclosed text h =>
      rw [strip_unclosed h, parts_unclosed h, List.filter_cons_of_pos (by simp [isBlank_quote])]
      rfl

theorem quotations_strip (text : List Char) : quotations (strip text) = quotations text := by
  rw [quotations, parts_strip, List.filter_filter]
  refine List.filter_congr fun part _ => ?_
  cases part with
  | nil => rfl
  | cons c rest =>
      by_cases hc : c = '\x22'
      · subst hc
        rfl
      · simp [hc]

end

/-! ## The machine -/

namespace Layout

variable {s : State} {c : Char} {d : Nat} {body text rest : List Char}

def State.Outside (s : State) : Prop := s.mode = .plain ∨ ∃ b, s.mode = .opened b

/-- What comes of a character outside strings: nothing of a blank, and any other one is written
between spaces.  A quote is written last, and a string begins. -/
inductive Emits (s : State) (c : Char) : List Char × State → Prop
  | blank (hblank : isBlank c = true) : Emits s c ([], s)
  | sign (before) {after next} (hblank : isBlank c = false) (hquote : c ≠ '\x22')
      (hbefore : Spaces before) (hafter : Spaces after) (hnext : next.Outside) :
      Emits s c (before ++ c :: after, next)
  | quote (before) {d} (hquote : c = '\x22') (hbefore : Spaces before) :
      Emits s c (before ++ ['\x22'], ⟨.quoted, d⟩)

theorem plainStep_emits (d : Nat) (c : Char) : Emits ⟨.plain, d⟩ c (plainStep d c) := by
  have hnone : Spaces [] := List.forall_mem_nil _
  have hplain : ∀ d, (⟨.plain, d⟩ : State).Outside := fun _ => .inl rfl
  unfold plainStep
  split
  · next hquote =>
    subst hquote
    exact .quote [] rfl hnone
  next hquote =>
  split
  · next b hopening =>
    have hblank : isBlank c = false := by
      unfold Bracket.ofOpening? at hopening
      split at hopening
      · next h => rw [h]; rfl
      split at hopening
      · next h => rw [h]; rfl
      · exact absurd hopening nofun
    exact .sign [] hblank hquote hnone hnone (.inr ⟨b, rfl⟩)
  split
  · next hclosing =>
    have hblank : isBlank c = false := by
      simp only [Bracket.isClosing, Bool.or_eq_true, beq_iff_eq] at hclosing
      rcases hclosing with rfl | rfl <;> rfl
    exact .sign _ hblank hquote (spaces_newline _) hnone (hplain _)
  split
  · next h =>
    subst h
    exact .sign [] rfl hquote hnone (spaces_newline d) (hplain d)
  split
  · next h =>
    subst h
    exact .sign [] rfl hquote hnone (List.forall_mem_singleton.2 rfl) (hplain d)
  split
  · next hblank => exact .blank hblank
  · next hblank =>
    exact .sign [] (Bool.not_eq_true _ ▸ hblank) hquote hnone hnone (hplain d)

theorem State.Outside.step_emits (h : s.Outside) (c : Char) : Emits s c (step s c) := by
  obtain ⟨mode, d⟩ := s
  rcases h with rfl | ⟨b, rfl⟩
  · exact plainStep_emits d c
  show Emits _ c (if isBlank c then ([], _) else if c = b.closing then ([c], ⟨.plain, d⟩) else
    (newline (d + 1) ++ (plainStep (d + 1) c).1, (plainStep (d + 1) c).2))
  split
  · next hblank => exact .blank hblank
  next hblank =>
  split
  · next hclosing =>
    have hquote : c ≠ '\x22' := by
      rw [hclosing]
      cases b <;> decide
    exact .sign [] (Bool.not_eq_true _ ▸ hblank) hquote (List.forall_mem_nil _)
      (List.forall_mem_nil _) (.inl rfl)
  · have hstep := plainStep_emits (d + 1) c
    generalize plainStep (d + 1) c = outcome at hstep
    -- the line that the bracket was left on ends here
    cases hstep with
    | blank h => exact absurd h hblank
    | sign before hblank hquote hbefore hafter hnext =>
        rw [← List.append_assoc]
        exact .sign _ hblank hquote ((spaces_newline _).append hbefore) hafter hnext
    | quote before hquote hbefore =>
        rw [← List.append_assoc]
        exact .quote _ hquote ((spaces_newline _).append hbefore)

/-! ## Strings -/

theorem run_quoted_items (h : Quote.string.Items body) (after : List Char) :
    run ⟨.quoted, d⟩ (body ++ after) = body ++ run ⟨.quoted, d⟩ after := by
  induction h with
  | nil => rfl
  | plain hmark hescape _ ih =>
      rw [List.cons_append, run_quoted_plain hmark hescape, ih, List.cons_append]
  | escaped _ ih => rw [List.cons_append, List.cons_append, run_quoted_escape, ih]; rfl

theorem run_quoted_closes (h : Quote.string.Closes text body rest) :
    run ⟨.quoted, d⟩ text = body ++ '\x22' :: run ⟨.plain, d⟩ rest := by
  rw [h.split, run_quoted_items h.items]
  rfl

theorem run_quoted_unclosed (h : ¬ ∃ body rest, Quote.string.Closes text body rest) :
    run ⟨.quoted, d⟩ text = text := by
  have hnone : Quote.string.body? text = none := by
    rw [Option.eq_none_iff_forall_ne_some]
    intro body hbody
    exact h ⟨body, Quote.body?_eq_some_iff.1 hbody⟩
  clear h
  fun_induction Quote.body? .string text with
  | case1 => rfl
  | case2 => exact absurd hnone (by simp)
  | case3 => rfl
  | case4 _ _ _ ih => rw [run_quoted_escape, ih (by simpa using hnone)]
  | case5 _ _ hmark hescape ih =>
      rw [run_quoted_plain hmark hescape, ih (by simpa using hnone)]

/-! ## Whole texts -/

theorem run_blank (h : s.Outside) (hblank : isBlank c = true) (rest : List Char) :
    run s (c :: rest) = run s rest := by
  have hstep := h.step_emits c
  rw [run_cons]
  generalize step s c = outcome at hstep
  cases hstep with
  | blank => rfl
  | sign _ hsign => exact absurd (hblank.symm.trans hsign) nofun
  | quote _ hquote => exact absurd (hquote ▸ hblank) (by decide)

theorem run_sign (h : s.Outside) (hblank : isBlank c = false) (hquote : c ≠ '\x22') :
    ∃ before after next, Spaces before ∧ Spaces after ∧ next.Outside ∧
      ∀ rest, run s (c :: rest) = before ++ c :: (after ++ run next rest) := by
  have hstep := h.step_emits c
  simp only [run_cons]
  generalize step s c = outcome at hstep
  cases hstep with
  | blank h => exact absurd (hblank.symm.trans h) nofun
  | @sign before after next _ _ hbefore hafter hnext =>
      exact ⟨before, after, next, hbefore, hafter, hnext, fun _ => List.append_assoc ..⟩
  | quote _ h => exact absurd h hquote

theorem run_quote (h : s.Outside) : ∃ before d, Spaces before ∧
    ∀ rest, run s ('\x22' :: rest) = before ++ '\x22' :: run ⟨.quoted, d⟩ rest := by
  have hstep := h.step_emits '\x22'
  simp only [run_cons]
  generalize step s '\x22' = outcome at hstep
  cases hstep with
  | blank h => exact absurd h (by decide)
  | sign _ _ hquote => exact absurd rfl hquote
  | @quote before d _ hbefore => exact ⟨before, d, hbefore, fun _ => List.append_assoc ..⟩

theorem spaces_finish (h : s.Outside) : Spaces (finish s) := by
  obtain ⟨mode, d⟩ := s
  rcases h with rfl | ⟨b, rfl⟩
  · exact List.forall_mem_nil _
  · exact spaces_newline (d + 1)

/-- The blanks outside strings make no difference. -/
theorem run_strip (text : List Char) (h : s.Outside) : run s (strip text) = run s text := by
  induction text using parts_induction generalizing s with
  | nil => rfl
  | blank c rest hblank ih => rw [strip_blank hblank, run_blank h hblank, ih h]
  | sign c rest hblank hquote ih =>
      obtain ⟨before, after, next, -, -, hnext, hrun⟩ := run_sign h hblank hquote
      rw [strip_sign hblank hquote, hrun, hrun, ih hnext]
  | quoted text body rest hcloses ih =>
      obtain ⟨before, d, -, hrun⟩ := run_quote h
      have hstripped : Quote.string.Closes (body ++ '\x22' :: strip rest) body (strip rest) :=
        ⟨hcloses.items, rfl⟩
      rw [strip_quoted hcloses, hrun, hrun, run_quoted_closes hstripped,
        run_quoted_closes hcloses, ih (.inl rfl)]
  | unclosed text hopen => rw [strip_unclosed hopen]

/-- Only blanks outside strings are added and left out. -/
theorem strip_run (text : List Char) (h : s.Outside) : strip (run s text) = strip text := by
  induction text using parts_induction generalizing s with
  | nil =>
      have hspaces := strip_spaces (spaces_finish h) []
      rwa [List.append_nil] at hspaces
  | blank c rest hblank ih => rw [run_blank h hblank, ih h, strip_blank hblank]
  | sign c rest hblank hquote ih =>
      obtain ⟨before, after, next, hbefore, hafter, hnext, hrun⟩ := run_sign h hblank hquote
      rw [hrun, strip_spaces hbefore, strip_sign hblank hquote, strip_spaces hafter, ih hnext,
        strip_sign hblank hquote]
  | quoted text body rest hcloses ih =>
      obtain ⟨before, d, hbefore, hrun⟩ := run_quote h
      have hwritten : Quote.string.Closes (body ++ '\x22' :: run ⟨.plain, d⟩ rest) body
          (run ⟨.plain, d⟩ rest) := ⟨hcloses.items, rfl⟩
      rw [hrun, run_quoted_closes hcloses, strip_spaces hbefore, strip_quoted hwritten,
        ih (.inl rfl), strip_quoted hcloses]
  | unclosed text hopen =>
      obtain ⟨before, d, hbefore, hrun⟩ := run_quote h
      rw [hrun, run_quoted_unclosed hopen, strip_spaces hbefore]

end Layout

theorem strip_layout (text : List Char) : strip (layout text) = strip text :=
  Layout.strip_run text (.inl rfl)

theorem layout_strip (text : List Char) : layout (strip text) = layout text :=
  Layout.run_strip text (.inl rfl)

/-- The layout of a text differs from it in the blanks outside its strings only, and is the same
for all texts that differ so.  It is its own layout, and has the strings of the text. -/
theorem layout_normalizes (text other : List Char) :
    strip (layout text) = strip text ∧
    (layout text = layout other ↔ strip text = strip other) ∧
    layout (layout text) = layout text ∧
    quotations (layout text) = quotations text := by
  have hiff : ∀ s t, layout s = layout t ↔ strip s = strip t := by
    intro s t
    constructor
    · intro h
      rw [← strip_layout s, h, strip_layout]
    · intro h
      rw [← layout_strip s, h, layout_strip]
  refine ⟨strip_layout text, hiff text other, (hiff _ _).2 (strip_layout text), ?_⟩
  rw [← quotations_strip, strip_layout, quotations_strip]

end MiniJava.Json
