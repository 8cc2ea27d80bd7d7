import MiniJava.Proofs.Lexical.Boundary
/-!
# The forms of a number

A number is hexadecimal, octal or decimal, or a decimal run with a fraction, an exponent or both.
A numeral without faults of form has the text of a number and ends where no number goes on; and a
number that ends there is taken apart into the numeral of its text.
-/

namespace MiniJava

open Text

namespace Lexical

/-! ## The grammar of numbers -/

def Run (r : Radix) (digits : List Char) : Prop :=
  digits ≠ [] ∧ ∀ c ∈ digits, r.isDigit c = true

/-- Decimal digits in which no octal digit follows a zero in front. -/
def PlainRun (digits : List Char) : Prop :=
  Run .decimal digits ∧ ∀ d rest, digits = '0' :: d :: rest → Radix.octal.isDigit d = false

inductive Fraction : List Char → Prop
  | none : Fraction []
  | digits {digits : List Char} (h : Run .decimal digits) : Fraction ('.' :: digits)

/-- An exponent, as it is written and with a small mark. -/
inductive Exponent : List Char → List Char → Prop
  | none : Exponent [] []
  | digits {mark : Char} {sign : Option Char} {digits : List Char}
      (hmark : mark = 'e' ∨ mark = 'E') (hsign : ∀ c ∈ sign, c = '+' ∨ c = '-')
      (h : Run .decimal digits) :
      Exponent (mark :: (sign.toList ++ digits)) ('e' :: (sign.toList ++ digits))

/-- What a number says: a whole number in a radix, or a real by its standard text. -/
inductive Amount where
  | whole (radix : Radix) (digits : List Char)
  | real (standard : List Char)

inductive NumberText : List Char → Amount → Prop
  | hexadecimal {x : Char} {digits : List Char} (hx : x = 'x' ∨ x = 'X')
      (h : Run .hexadecimal digits) :
      NumberText ('0' :: x :: digits) (.whole .hexadecimal digits)
  | octal {digits : List Char} (h : Run .octal digits) :
      NumberText ('0' :: digits) (.whole .octal digits)
  | decimal {digits : List Char} (h : PlainRun digits) :
      NumberText digits (.whole .decimal digits)
  | real {whole fraction exponent standard : List Char} (h : PlainRun whole)
      (hfraction : Fraction fraction) (hexponent : Exponent exponent standard)
      (hsome : fraction ≠ [] ∨ exponent ≠ []) :
      NumberText (whole ++ (fraction ++ exponent)) (.real (whole ++ (fraction ++ standard)))

/-- No number goes on at the front of a text: neither with a letter, a digit or an underscore, nor
with a dot and a digit. -/
structure EndsNumber (rest : List Char) : Prop where
  word : ∀ c ∈ rest.head?, isWordChar c = false
  dot : ∀ d more, rest = '.' :: d :: more → d.isDigit = false

variable {rest q : List Char}

theorem EndsNumber.of_append (h : EndsNumber (q ++ rest)) : EndsNumber q := by
  constructor
  · intro c hc
    apply h.word
    rw [List.head?_append, Option.mem_def.1 hc]
    rfl
  · rintro d more rfl
    exact h.dot d (more ++ rest) rfl

theorem endsNumber_nil : EndsNumber [] := ⟨by simp, by simp⟩

theorem Run.isDigit {digits : List Char} (h : Run .decimal digits) :
    ∀ c ∈ digits, c.isDigit = true := fun c hc => Radix.isDigit_of_decimal (h.2 c hc)

theorem run_of_isDigit {digits : List Char} (hne : digits ≠ [])
    (h : ∀ c ∈ digits, c.isDigit = true) : Run .decimal digits :=
  ⟨hne, fun c hc => Radix.isDigit_decimal (h c hc)⟩

theorem EndsNumber.isDigit (h : EndsNumber rest) (r : Radix) :
    ∀ c ∈ rest.head?, r.isDigit c = false := by
  intro c hc
  rw [Bool.eq_false_iff]
  intro hdigit
  have hword : isWordChar c = true :=
    Bool.or_eq_true_iff.2 (.inl (Radix.isAlphanum_of_isDigit hdigit))
  rw [h.word c hc] at hword
  exact absurd hword (by decide)

theorem EndsNumber.noDigit (h : EndsNumber rest) : NumeralPart.NoDigit rest := by
  intro c hc
  rw [Bool.eq_false_iff]
  intro hdigit
  have hdecimal := h.isDigit .decimal c hc
  rw [Radix.isDigit_decimal hdigit] at hdecimal
  exact absurd hdecimal (by decide)

theorem radix_isDigit_eq_false {r : Radix} (hr : r.base ≤ 10) {c : Char} (h : c.isDigit = false) :
    r.isDigit c = false := by
  rw [Bool.eq_false_iff]
  intro hdigit
  have hdecimal := Radix.isDigit_of_decimal (Radix.isDigit_mono (s := .decimal) hr hdigit)
  rw [h] at hdecimal
  exact absurd hdecimal (by decide)

/-! ## Numbers taken apart -/

namespace NumeralPart

inductive Ordered : List NumeralPart → Prop
  | none : Ordered []
  | fraction {digits : List Char} (h : Run .decimal digits) : Ordered [.fraction digits]
  | exponent {mark : Char} {sign : Option Char} {digits : List Char}
      (hmark : mark = 'e' ∨ mark = 'E') (hsign : ∀ c ∈ sign, c = '+' ∨ c = '-')
      (h : Run .decimal digits) : Ordered [.exponent mark sign digits]
  | both {part : List Char} {mark : Char} {sign : Option Char} {digits : List Char}
      (hpart : Run .decimal part) (hmark : mark = 'e' ∨ mark = 'E')
      (hsign : ∀ c ∈ sign, c = '+' ∨ c = '-') (h : Run .decimal digits) :
      Ordered [.fraction part, .exponent mark sign digits]

variable {radix : Radix} {after : List Char} {hasFraction : Bool} {offset : Nat}
  {parts : List NumeralPart}

theorem faults_after_exponent (h : faults radix after hasFraction true offset parts = []) :
    parts = [] := by
  cases parts with
  | nil => rfl
  | cons part parts => cases part <;> simp [faults] at h

theorem faults_after_fraction (h : faults radix after true false offset parts = []) :
    parts = [] ∨ ∃ mark sign digits, parts = [.exponent mark sign digits] := by
  cases parts with
  | nil => exact .inl rfl
  | cons part parts =>
      cases part with
      | fraction => simp [faults] at h
      | exponent mark sign digits =>
          simp only [faults, List.append_eq_nil_iff] at h
          obtain rfl := faults_after_exponent h.2
          exact .inr ⟨mark, sign, digits, rfl⟩

theorem Formed.run_fraction {digits : List Char} (h : (NumeralPart.fraction digits).Formed radix) :
    Run .decimal digits := by
  cases h with
  | fraction hdigits hne => exact run_of_isDigit hne hdigits

theorem Formed.exponent_parts {mark : Char} {sign : Option Char} {digits : List Char}
    (h : (NumeralPart.exponent mark sign digits).Formed radix) (hne : digits ≠ []) :
    (mark = 'e' ∨ mark = 'E') ∧ (∀ c ∈ sign, c = '+' ∨ c = '-') ∧ Run .decimal digits := by
  cases h with
  | exponent hdigits _ hmark hsign => exact ⟨hmark, hsign, run_of_isDigit hne hdigits⟩

theorem ordered_of_faults_nil (hformed : ∀ part ∈ parts, part.Formed radix)
    (h : faults radix after false false offset parts = []) : Ordered parts := by
  have hdigits : ∀ part ∈ parts, part.digits ≠ [] := fun part hpart =>
    ((of_faults_nil hformed h).1 part hpart).2
  cases parts with
  | nil => exact .none
  | cons part parts =>
      obtain ⟨hpart, hparts⟩ := List.forall_mem_cons.1 hformed
      obtain ⟨hdigit, hlater⟩ := List.forall_mem_cons.1 hdigits
      cases part with
      | fraction =>
          have hrun := hpart.run_fraction
          simp only [faults, List.append_eq_nil_iff] at h
          rcases faults_after_fraction h.2 with rfl | ⟨mark, sign, digits, rfl⟩
          · exact .fraction hrun
          · rw [List.forall_mem_singleton] at hparts hlater
            obtain ⟨hmark, hsign, hdigits⟩ := hparts.exponent_parts hlater
            exact .both hrun hmark hsign hdigits
      | exponent =>
          simp only [faults, List.append_eq_nil_iff] at h
          obtain rfl := faults_after_exponent h.2
          obtain ⟨hmark, hsign, hrun⟩ := hpart.exponent_parts hdigit
          exact .exponent hmark hsign hrun

theorem Ordered.formed (h : Ordered parts) :
    ∀ part ∈ parts, part.Formed .decimal ∧ part.digits ≠ [] := by
  cases h with
  | none => exact List.forall_mem_nil _
  | fraction h => exact List.forall_mem_singleton.2 ⟨.fraction h.isDigit h.1, h.1⟩
  | exponent hmark hsign h =>
      exact List.forall_mem_singleton.2 ⟨.exponent h.isDigit rfl hmark hsign, h.1⟩
  | both hpart hmark hsign h =>
      exact List.forall_mem_cons.2 ⟨⟨.fraction hpart.isDigit hpart.1, hpart.1⟩,
        List.forall_mem_singleton.2 ⟨.exponent h.isDigit rfl hmark hsign, h.1⟩⟩

theorem Ordered.faults (h : Ordered parts) (after : List Char) (offset : Nat) :
    faults .decimal after false false offset parts = [] := by
  cases h with
  | none => rfl
  | fraction => rfl
  | exponent _ _ h => simp [NumeralPart.faults, h.1]
  | both _ _ _ h => simp [NumeralPart.faults, h.1]

theorem Ordered.exists_texts (h : Ordered parts) :
    ∃ fraction exponent standard, Fraction fraction ∧ Exponent exponent standard ∧
      parts.flatMap text = fraction ++ exponent ∧
      parts.flatMap standardText = fraction ++ standard := by
  cases h with
  | none => exact ⟨[], [], [], .none, .none, rfl, rfl⟩
  | fraction h => exact ⟨_, [], [], .digits h, .none, rfl, rfl⟩
  | exponent hmark hsign h =>
      exact ⟨[], _, _, .none, .digits hmark hsign h, List.append_nil _, List.append_nil _⟩
  | both hpart hmark hsign h =>
      exact ⟨_, _, _, .digits hpart, .digits hmark hsign h, by simp [text], by simp [standardText]⟩

theorem exists_ordered {fraction exponent standard : List Char} (hfraction : Fraction fraction)
    (hexponent : Exponent exponent standard) :
    ∃ parts, Ordered parts ∧ parts.flatMap text = fraction ++ exponent ∧
      parts.flatMap standardText = fraction ++ standard := by
  cases hfraction with
  | none =>
      cases hexponent with
      | none => exact ⟨[], .none, rfl, rfl⟩
      | digits hmark hsign h =>
          exact ⟨_, .exponent hmark hsign h, List.append_nil _, List.append_nil _⟩
  | digits hpart =>
      cases hexponent with
      | none => exact ⟨_, .fraction hpart, rfl, rfl⟩
      | digits hmark hsign h =>
          exact ⟨_, .both hpart hmark hsign h, by simp [text], by simp [standardText]⟩

end NumeralPart

namespace Numeral

def amount (n : Numeral) : Amount :=
  if n.parts = [] then .whole n.radix n.digits
  else .real (n.digits ++ n.parts.flatMap NumeralPart.standardText)

/-- A numeral without faults of form: only a decimal one goes on after its whole number. -/
inductive Regular : Numeral → Prop
  | hexadecimal {x : Char} {digits : List Char} (hx : x = 'x' ∨ x = 'X')
      (h : Run .hexadecimal digits) : Regular ⟨.hexadecimal, ['0', x], digits, [], []⟩
  | octal {digits : List Char} (h : Run .octal digits) : Regular ⟨.octal, ['0'], digits, [], []⟩
  | decimal {digits : List Char} {parts : List NumeralPart} (h : PlainRun digits)
      (hparts : NumeralPart.Ordered parts) : Regular ⟨.decimal, [], digits, parts, []⟩

variable {n : Numeral} {rest : List Char}

/-! ### The numerals of the grammar -/

theorem Regular.numberText (h : n.Regular) : NumberText n.text n.amount := by
  cases h with
  | hexadecimal hx h =>
      have hnumber := NumberText.hexadecimal hx h
      simpa [text, amount] using hnumber
  | octal h =>
      have hnumber := NumberText.octal h
      simpa [text, amount] using hnumber
  | @decimal digits parts h hparts =>
      by_cases hnil : parts = []
      · subst hnil
        have hnumber := NumberText.decimal h
        simpa [text, amount] using hnumber
      · obtain ⟨fraction, exponent, standard, hfraction, hexponent, htext, hstandard⟩ :=
          hparts.exists_texts
        have hsome : fraction ≠ [] ∨ exponent ≠ [] := by
          rw [← not_and_or]
          rintro ⟨rfl, rfl⟩
          have hnone := List.flatMap_eq_nil_iff.1 htext
          obtain ⟨part, more, rfl⟩ := List.exists_cons_of_ne_nil hnil
          have hpart := hnone part (List.mem_cons_self ..)
          cases part <;> exact absurd hpart (List.cons_ne_nil _ _)
        rw [amount, if_neg hnil, Numeral.text, List.nil_append, htext, hstandard]
        exact .real h hfraction hexponent hsome

/-- Every number is a numeral of regular form. -/
theorem exists_regular {number : List Char} {amount : Amount} (h : NumberText number amount) :
    ∃ n : Numeral, n.Regular ∧ n.text = number ∧ n.amount = amount := by
  cases h with
  | hexadecimal hx h => exact ⟨_, .hexadecimal hx h, by simp [text], rfl⟩
  | octal h => exact ⟨_, .octal h, by simp [text], rfl⟩
  | decimal h => exact ⟨_, .decimal h .none, by simp [text], rfl⟩
  | real h hfraction hexponent hsome =>
      obtain ⟨parts, hparts, htext, hstandard⟩ := NumeralPart.exists_ordered hfraction hexponent
      have hnil : parts ≠ [] := by
        rintro rfl
        obtain ⟨rfl, rfl⟩ := List.append_eq_nil_iff.1 htext.symm
        simp at hsome
      refine ⟨_, .decimal h hparts, ?_, ?_⟩
      · rw [text, htext, List.nil_append]
      · rw [Numeral.amount, if_neg hnil, hstandard]

/-! ### A numeral of regular form is taken as it stands -/

theorem radixMark_of_plainRun {digits : List Char} (h : PlainRun digits)
    (hrest : ∀ c ∈ rest.head?, c ≠ 'x' ∧ c ≠ 'X' ∧ Radix.octal.isDigit c = false) :
    radixMark (digits ++ rest) = (.decimal, []) := by
  have hdecide : ∀ c d more, (c = '0' → d ≠ 'x' ∧ d ≠ 'X' ∧ Radix.octal.isDigit d = false) →
      radixMark (c :: d :: more) = (.decimal, []) := by
    intro c d more hd
    rw [radixMark_cons_cons]
    by_cases hc : c = '0'
    · obtain ⟨hx, hX, hoctal⟩ := hd hc
      rw [if_pos hc, if_neg (not_or.2 ⟨hx, hX⟩), hoctal]
      rfl
    · rw [if_neg hc]
  obtain ⟨⟨hne, hdigits⟩, hplain⟩ := h
  match digits, hne with
  | [c], _ =>
      cases rest with
      | nil => exact radixMark_of_parted c (by simp [Parted])
      | cons d more => exact hdecide c d more fun _ => hrest d rfl
  | c :: d :: digits, _ =>
      apply hdecide
      rintro rfl
      have hd : Radix.decimal.isDigit d = true := hdigits d (by simp)
      refine ⟨?_, ?_, hplain d digits rfl⟩
      · rintro rfl
        exact absurd hd (by decide)
      · rintro rfl
        exact absurd hd (by decide)

theorem read?_of_endsNumber (h : EndsNumber rest) (radix : Radix) :
    NumeralPart.read? radix rest = none := by
  cases rest with
  | nil => rfl
  | cons c more =>
      have hword : isWordChar c = false := h.word c rfl
      have hmark : c ≠ 'e' ∧ c ≠ 'E' := by
        constructor <;> rintro rfl <;> exact absurd hword (by decide)
      rw [NumeralPart.read?]
      by_cases hdot : c = '.'
      · rw [if_pos hdot, if_neg]
        subst hdot
        cases more with
        | nil => simp
        | cons d more => simp [h.dot d more rfl]
      · rw [if_neg hdot, if_neg]
        simp [hmark]

theorem follows_plainRun {parts : List NumeralPart} (hparts : NumeralPart.Ordered parts)
    (hrest : EndsNumber rest) :
    ∀ c ∈ (parts.flatMap NumeralPart.text ++ rest).head?,
      c.isDigit = false ∧ c ≠ 'x' ∧ c ≠ 'X' := by
  have hmark : ∀ {mark : Char}, mark = 'e' ∨ mark = 'E' →
      mark.isDigit = false ∧ mark ≠ 'x' ∧ mark ≠ 'X' := by
    rintro mark (rfl | rfl) <;> decide
  intro c hc
  cases hparts with
  | none =>
      have hword : isWordChar c = false := hrest.word c hc
      have hne : ∀ d, isWordChar d = true → c ≠ d := by
        rintro d hd rfl
        rw [hd] at hword
        exact absurd hword (by decide)
      exact ⟨hrest.noDigit c hc, hne 'x' (by decide), hne 'X' (by decide)⟩
  | fraction =>
      obtain rfl : '.' = c := Option.some.inj hc
      decide
  | exponent h =>
      obtain rfl := Option.some.inj hc
      exact hmark h
  | both =>
      obtain rfl : '.' = c := Option.some.inj hc
      decide

theorem Regular.taken (h : n.Regular) (hrest : EndsNumber rest) : n.Taken rest := by
  cases h with
  | @hexadecimal x digits hx h =>
      refine ⟨?_, h.2, hrest.isDigit _, chunks_of_none (read?_of_endsNumber hrest _), rfl⟩
      simp [text, radixMark, hx]
  | @octal digits h =>
      refine ⟨?_, h.2, hrest.isDigit _, chunks_of_none (read?_of_endsNumber hrest _), rfl⟩
      obtain ⟨hne, hdigits⟩ := h
      obtain ⟨d, more, rfl⟩ := List.exists_cons_of_ne_nil hne
      have hd : Radix.octal.isDigit d = true := hdigits d (List.mem_cons_self ..)
      have hx : ¬ (d = 'x' ∨ d = 'X') := by
        rintro (rfl | rfl) <;> exact absurd hd (by decide)
      simp [text, radixMark, hx, hd]
  | @decimal digits parts h hparts =>
      have hfollows := follows_plainRun hparts hrest
      refine ⟨?_, h.1.2, fun c hc => ?_, ?_, rfl⟩
      · rw [text, List.nil_append, List.append_assoc]
        apply radixMark_of_plainRun h
        intro c hc
        obtain ⟨hdigit, hx, hX⟩ := hfollows c hc
        exact ⟨hx, hX, radix_isDigit_eq_false (by decide) hdigit⟩
      · exact radix_isDigit_eq_false (r := .decimal) (by decide) (hfollows c hc).1
      · exact NumeralPart.chunks_append hrest.noDigit (read?_of_endsNumber hrest _) hparts.formed

theorem Regular.faults (h : n.Regular) (after : List Char) : n.faults after = [] := by
  rw [faults_eq_nil]
  cases h with
  | hexadecimal _ h => exact ⟨rfl, fun _ => h.1, rfl⟩
  | octal => exact ⟨rfl, nofun, rfl⟩
  | decimal _ hparts => exact ⟨rfl, nofun, hparts.faults ..⟩

/-- Where the number ends, a numeral of regular form is what the text is taken apart into. -/
theorem Regular.ofText (h : n.Regular) (hrest : EndsNumber rest) : ofText (n.text ++ rest) = n :=
  (h.taken hrest).ofText_eq hrest.word

theorem Regular.read (h : n.Regular) (hrest : EndsNumber rest) :
    read (n.text ++ rest) = ⟨n.text, n.value⟩ := by
  have hglued : n.glued = [] := (h.taken hrest).glued
  unfold Numeral.read
  simp only [h.ofText hrest, hglued, List.append_nil, h.faults]

/-- No longer number begins with a number unless what follows goes on with it. -/
theorem Regular.maximal {m : Numeral} {more : List Char} (hn : n.Regular) (hm : m.Regular)
    (htext : m.text = n.text ++ more) (hmore : EndsNumber more) : more = [] := by
  -- One text is taken apart in one way, and both numbers end where it may stop.
  have hshort := hn.ofText hmore
  have hlong := hm.ofText endsNumber_nil
  rw [List.append_nil, htext, hshort] at hlong
  rw [← hlong] at htext
  exact List.self_eq_append_right.1 htext

/-! ### What has no faults is of regular form -/

theorem radixMark_forms (s : List Char) :
    (∃ x, (x = 'x' ∨ x = 'X') ∧ radixMark s = (.hexadecimal, ['0', x])) ∨
      (radixMark s = (.octal, ['0']) ∧
        ∃ d more, s = '0' :: d :: more ∧ Radix.octal.isDigit d = true) ∨
      radixMark s = (.decimal, []) ∧
        ∀ d more, s = '0' :: d :: more → Radix.octal.isDigit d = false := by
  match s with
  | [] => exact .inr (.inr ⟨rfl, by simp⟩)
  | [c] => exact .inr (.inr ⟨radixMark_of_parted c (by simp [Parted]), by simp⟩)
  | c :: d :: more =>
      rw [radixMark_cons_cons]
      by_cases hc : c = '0'
      · rw [if_pos hc]
        by_cases hx : d = 'x' ∨ d = 'X'
        · exact .inl ⟨d, hx, if_pos hx⟩
        · rw [if_neg hx]
          by_cases hd : Radix.octal.isDigit d = true
          · exact .inr (.inl ⟨if_pos hd, d, more, by rw [hc], hd⟩)
          · refine .inr (.inr ⟨if_neg hd, ?_⟩)
            rintro d' more' heq
            obtain ⟨rfl, -⟩ := List.cons.inj (List.cons.inj heq).2
            exact Bool.eq_false_iff.2 hd
      · rw [if_neg hc]
        refine .inr (.inr ⟨rfl, ?_⟩)
        rintro d' more' heq
        exact absurd (List.cons.inj heq).1 hc

theorem endsNumber_of_stop {radix : Radix} (hword : rest.takeWhile isWordChar = [])
    (hnone : NumeralPart.read? radix rest = none) : EndsNumber rest := by
  constructor
  · intro c hc
    obtain ⟨more, rfl⟩ := List.head?_eq_some_iff.1 hc
    by_contra hne
    rw [List.takeWhile_cons_of_pos (by simpa using hne)] at hword
    exact absurd hword (List.cons_ne_nil _ _)
  · rintro d more rfl
    rw [Bool.eq_false_iff]
    intro hd
    simp [NumeralPart.read?, hd] at hnone

/-- What is taken from a text that begins with a digit is of regular form unless it has faults. -/
theorem Taken.regular {c : Char} {text after : List Char} (h : n.Taken rest)
    (htext : n.text ++ rest = c :: text) (hc : c.isDigit = true)
    (hformed : ∀ part ∈ n.parts, part.Formed n.radix) (hfaults : n.faults after = []) :
    n.Regular := by
  obtain ⟨hglued, hbare, hparts⟩ := faults_eq_nil.1 hfaults
  obtain ⟨radix, mark, digits, parts, glued⟩ := n
  obtain rfl : glued = [] := hglued
  have hmark := h.mark
  have hstop := h.stop
  rw [htext] at hmark
  have hwhole : radix ≠ .decimal → parts = [] := by
    intro hradix
    rw [List.eq_nil_iff_forall_not_mem]
    intro part hpart
    exact hradix ((NumeralPart.of_faults_nil hformed hparts).1 part hpart).1
  rcases radixMark_forms (c :: text) with
    ⟨x, hx, hform⟩ | ⟨hform, d, more, hcons, hd⟩ | ⟨hform, hplain⟩
  · obtain ⟨rfl, rfl⟩ := Prod.mk.inj (hform.symm.trans hmark)
    obtain rfl := hwhole nofun
    exact .hexadecimal hx ⟨hbare rfl, h.digits⟩
  · obtain ⟨rfl, rfl⟩ := Prod.mk.inj (hform.symm.trans hmark)
    obtain rfl := hwhole nofun
    refine .octal ⟨?_, h.digits⟩
    -- The mark was chosen for an octal digit, so the run of them is not empty.
    rintro rfl
    obtain rfl : rest = d :: more := (List.cons.inj (htext.trans hcons)).2
    exact absurd hd (Bool.eq_false_iff.1 (hstop d rfl))
  · obtain ⟨rfl, rfl⟩ := Prod.mk.inj (hform.symm.trans hmark)
    refine .decimal ⟨⟨?_, h.digits⟩, ?_⟩ (NumeralPart.ordered_of_faults_nil hformed hparts)
    · rintro rfl
      rw [show parts.flatMap NumeralPart.text ++ rest = c :: text from htext] at hstop
      exact absurd (Radix.isDigit_decimal hc) (Bool.eq_false_iff.1 (hstop c rfl))
    · rintro d more rfl
      exact hplain d _ htext.symm

theorem regular_of_faults_nil {c : Char} {text after : List Char} (hc : c.isDigit = true)
    (h : (ofText (c :: text)).faults after = []) :
    (ofText (c :: text)).Regular ∧
      ∃ rest, c :: text = (ofText (c :: text)).text ++ rest ∧ EndsNumber rest := by
  have hglued := glued_of_faults_nil h
  obtain ⟨rest, hsplit, hword, hnone⟩ := exists_rest_ofText (c :: text)
  have htaken : (ofText (c :: text)).Taken rest := by
    obtain ⟨rest', hsplit', htaken⟩ := taken_ofText hglued
    rwa [List.append_cancel_left (hsplit.trans hsplit')]
  have hends : EndsNumber rest := endsNumber_of_stop (hword.symm.trans hglued) hnone
  exact ⟨htaken.regular hsplit hc (formed_ofText _) h, rest, hsplit.symm, hends⟩

end Numeral

end Lexical

end MiniJava
