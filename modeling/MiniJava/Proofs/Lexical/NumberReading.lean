import MiniJava.Proofs.Json.Numerals
import MiniJava.Proofs.Lexical.Attempt
import MiniJava.Proofs.Lexical.NumberForms
import Mathlib.Data.Nat.Digits.Defs
/-!
# Numbers, exactly

At a digit the recogniser takes the longest number of the grammar, if that number ends there and
fits, with the value its digits write; anything else is reported.  What is converted to a real is
always a decimal in standard form.
-/

namespace MiniJava

open Numeric Text

namespace Text.Radix

/-- The number that digits write by their places, the last one counting units. -/
def positional (r : Radix) (digits : List Char) : Nat :=
  Nat.ofDigits r.base (digits.reverse.map fun c => (r.value? c).getD 0)

theorem number_eq_positional (r : Radix) (digits : List Char) :
    r.number digits = r.positional digits := by
  induction digits using List.reverseRecOn with
  | nil => rfl
  | append_singleton digits c ih =>
      have hnumber : r.number (digits ++ [c]) = r.number digits * r.base + (r.value? c).getD 0 := by
        rw [number, List.foldl_append]
        rfl
      rw [hnumber, ih, positional, positional, List.reverse_append, List.reverse_singleton,
        List.singleton_append, List.map_cons, Nat.ofDigits_cons, Nat.mul_comm, Nat.add_comm]

end Text.Radix

namespace Lexical

/-! ## Values -/

/-- Digits, possibly a fraction and possibly an exponent with a small mark. -/
def StandardReal (text : List Char) : Prop :=
  ∃ whole fraction exponent standard, Run .decimal whole ∧ Fraction fraction ∧
    Exponent exponent standard ∧ text = whole ++ (fraction ++ standard)

/-- The literals of amounts that fit: a whole number has 31 bits, a real is finite. -/
inductive Amount.Literal : Amount → TokenKind → Payload → Prop
  | whole {r : Radix} {digits : List Char} (h : r.positional digits ≤ 2147483647) :
      Literal (.whole r digits) .integer (.int (r.positional digits))
  | real {text : List Char} {x : Binary64} (h : Binary64.ofText? text = some x)
      (hfinite : x.isFinite = true) : Literal (.real text) .real (.real x)

namespace Numeral

variable {n : Numeral}

theorem Regular.standardReal (h : n.Regular) (hparts : n.parts ≠ []) :
    StandardReal (n.digits ++ n.parts.flatMap NumeralPart.standardText) := by
  cases h with
  | hexadecimal => exact absurd rfl hparts
  | octal => exact absurd rfl hparts
  | decimal h hordered =>
      obtain ⟨fraction, exponent, standard, hfraction, hexponent, -, hstandard⟩ :=
        hordered.exists_texts
      exact ⟨_, _, _, _, h.1, hfraction, hexponent, by rw [hstandard]⟩

end Numeral

theorem Exponent.read {exponent standard : List Char} (h : Exponent exponent standard) :
    ∃ e, standard = [] ∧ e = 0 ∨
      ∃ sum, standard = 'e' :: sum ∧ Decimal.exponentOf? sum = some e := by
  cases h with
  | none => exact ⟨0, .inl ⟨rfl, rfl⟩⟩
  | @digits _ sign _ _ hsign h =>
      have hdigits : Json.Digits _ := ⟨h.1, h.isDigit⟩
      cases sign with
      | none => exact ⟨_, .inr ⟨_, rfl, Decimal.exponentOf_digits hdigits⟩⟩
      | some c =>
          rcases hsign c rfl with rfl | rfl
          · exact ⟨_, .inr ⟨_, rfl, Decimal.exponentOf_plus hdigits⟩⟩
          · exact ⟨_, .inr ⟨_, rfl, Decimal.exponentOf_minus hdigits⟩⟩

theorem exists_binary64 {c : Char} {text : List Char} {d : Decimal} (hc : c.isDigit = true)
    (h : Decimal.ofText? (c :: text) = some d) : ∃ x, Binary64.ofText? (c :: text) = some x := by
  unfold Binary64.ofText?
  dsimp only
  split
  · next heq =>
    obtain rfl := (List.cons.inj heq).1
    exact absurd hc (by decide)
  · next heq =>
    obtain rfl := (List.cons.inj heq).1
    exact absurd hc (by decide)
  · split
    · exact ⟨_, rfl⟩
    split
    · exact ⟨_, rfl⟩
    · exact ⟨_, by rw [h]; rfl⟩

/-- A real in its standard form is converted. -/
theorem StandardReal.converts {text : List Char} (h : StandardReal text) :
    ∃ x, Binary64.ofText? text = some x := by
  obtain ⟨whole, fraction, exponent, standard, hwhole, hfraction, hexponent, rfl⟩ := h
  have hdigits : Json.Digits whole := ⟨hwhole.1, hwhole.isDigit⟩
  obtain ⟨e, he⟩ := hexponent.read
  obtain ⟨d, hd⟩ : ∃ d, Decimal.ofText? (whole ++ (fraction ++ standard)) = some d := by
    cases hfraction with
    | none =>
        have hnone : ∀ c ∈ ([] : List Char), c.isDigit = true := List.forall_mem_nil _
        exact ⟨_, Decimal.ofText?_parts hdigits hnone he⟩
    | digits h =>
        have hread := Decimal.ofText?_parts hdigits h.isDigit he
        rw [Decimal.fractionText_of_ne_nil h.1] at hread
        exact ⟨_, hread⟩
  obtain ⟨c, more, rfl⟩ := List.exists_cons_of_ne_nil hwhole.1
  exact exists_binary64 (hdigits.2 c (List.mem_cons_self ..)) hd

theorem NumeralPart.cause_ne_realForm {radix : Radix} {after : List Char}
    {hasFraction hasExponent : Bool} {offset : Nat} {parts : List NumeralPart} {f : Fault}
    (h : f ∈ faults radix after hasFraction hasExponent offset parts) (text : String) :
    f.cause ≠ .realForm text := by
  induction parts generalizing hasFraction hasExponent offset with
  | nil => exact absurd h (List.not_mem_nil)
  | cons part parts ih =>
      cases part with
      | fraction =>
          simp only [faults, List.mem_append, List.mem_ite_nil_right, List.mem_singleton] at h
          rcases h with ((⟨-, rfl⟩ | ⟨-, rfl⟩) | h) | h
          · simp
          · simp
          · cases radix with
            | decimal => exact absurd h List.not_mem_nil
            | octal => rw [List.mem_singleton.1 h]; simp
            | hexadecimal => rw [List.mem_singleton.1 h]; simp
          · exact ih h
      | exponent =>
          simp only [faults, List.mem_append, List.mem_ite_nil_right, List.mem_singleton] at h
          rcases h with (⟨-, rfl⟩ | ⟨-, rfl⟩) | h
          · simp
          · simp
          · exact ih h

namespace Numeral

variable {n : Numeral}

theorem value_of_literal {kind : TokenKind} {payload : Payload}
    (h : n.amount.Literal kind payload) :
    n.value = .word (.literal kind (String.ofList n.text) payload) := by
  unfold amount at h
  unfold value
  dsimp only
  split at h
  · next hparts =>
    cases h with
    | whole h =>
      rw [if_pos hparts, Radix.number_eq_positional, maxInteger, if_pos h]
  · next hparts =>
    cases h with
    | real h hfinite =>
      rw [if_neg hparts, h]
      exact if_pos hfinite

/-- A number that does not fit is out of range, and nothing else is wrong with it. -/
theorem Regular.value_of_no_literal (hn : n.Regular)
    (h : ¬ ∃ kind payload, n.amount.Literal kind payload) :
    ∃ cause, (∀ text, cause ≠ .realForm text) ∧ n.value = .malformed (.atStart cause) [] := by
  unfold amount at h
  unfold value
  dsimp only
  split at h
  · next hparts =>
    have hlarge : ¬ n.radix.positional n.digits ≤ 2147483647 := fun hfits => h ⟨_, _, .whole hfits⟩
    rw [if_pos hparts, Radix.number_eq_positional, maxInteger, if_neg hlarge]
    exact ⟨.integerRange _, by simp, rfl⟩
  · next hparts =>
    obtain ⟨x, hx⟩ := (hn.standardReal hparts).converts
    have hinfinite : ¬ x.isFinite = true := fun hfinite => h ⟨_, _, .real hx hfinite⟩
    rw [if_neg hparts, hx]
    exact ⟨.realRange _, by simp, if_neg hinfinite⟩

theorem cause_ne_realForm {after : List Char} {f : Fault} (h : f ∈ n.faults after)
    (text : String) : f.cause ≠ .realForm text := by
  unfold faults at h
  dsimp only at h
  generalize hfound : (_ : List Fault) ++ NumeralPart.faults _ _ _ _ _ _ = found at h
  split at h
  · obtain rfl := List.mem_singleton.1 h
    simp [Fault.atStart]
  · subst hfound
    simp only [List.mem_append, List.mem_ite_nil_right, List.mem_singleton] at h
    rcases h with ⟨-, rfl⟩ | h
    · simp
    · exact NumeralPart.cause_ne_realForm h text

end Numeral

/-! ## The longest number at the front of a text -/

/-- A number at the front of a text, and no longer one stands there. -/
structure LongestNumber (text number after : List Char) : Prop where
  split : text = number ++ after
  isNumber : ∃ amount, NumberText number amount
  longest : ∀ other rest amount, text = other ++ rest → NumberText other amount →
    other.length ≤ number.length

theorem numberText_digit {c : Char} (hc : c.isDigit = true) :
    NumberText [c] (.whole .decimal [c]) :=
  .decimal ⟨⟨List.cons_ne_nil _ _, List.forall_mem_singleton.2 (Radix.isDigit_decimal hc)⟩, by simp⟩

theorem exists_longestNumber {c : Char} (hc : c.isDigit = true) (rest : List Char) :
    ∃ number after, LongestNumber (c :: rest) number after := by
  classical
  let text := c :: rest
  let IsNumber (k : Nat) : Prop := ∃ amount, NumberText (text.take k) amount
  have hone : IsNumber 1 := ⟨_, numberText_digit hc⟩
  have hpos : 1 ≤ text.length := Nat.succ_pos _
  refine ⟨text.take (Nat.findGreatest IsNumber text.length),
    text.drop (Nat.findGreatest IsNumber text.length), ?_⟩
  exact {
    split := (List.take_append_drop ..).symm
    isNumber := Nat.findGreatest_spec hpos hone
    longest := by
      intro other more amount hsplit hnumber
      have hlength : other.length ≤ text.length := by
        rw [show text = other ++ more from hsplit, List.length_append]
        exact Nat.le_add_right ..
      have hother : IsNumber other.length := by
        refine ⟨amount, ?_⟩
        rwa [show text = other ++ more from hsplit, List.take_left]
      rw [List.length_take, Nat.min_eq_left (Nat.findGreatest_le _)]
      exact Nat.le_findGreatest hlength hother }

theorem LongestNumber.eq_of_ends {text number after rest : List Char} {n : Numeral}
    (h : LongestNumber text number after) (hn : n.Regular) (hsplit : text = n.text ++ rest)
    (hrest : EndsNumber rest) : n.text = number ∧ rest = after := by
  obtain ⟨amount, hamount⟩ := h.isNumber
  obtain ⟨m, hm, rfl, -⟩ := Numeral.exists_regular hamount
  have hprefix : n.text <+: m.text := by
    apply List.prefix_of_prefix_length_le ⟨rest, hsplit.symm⟩ ⟨after, h.split.symm⟩
    exact h.longest n.text rest n.amount hsplit hn.numberText
  obtain ⟨more, hmore⟩ := hprefix
  have hboth := hsplit.symm.trans h.split
  rw [← hmore, List.append_assoc] at hboth
  obtain rfl : rest = more ++ after := List.append_cancel_left hboth
  obtain rfl := hn.maximal hm hmore.symm hrest.of_append
  rw [List.append_nil] at hmore
  exact ⟨hmore, rfl⟩

/-- The longest number is read if it ends where it stands and fits. -/
theorem LongestNumber.read_literal {text number after : List Char} {amount : Amount}
    {kind : TokenKind} {payload : Payload} (h : LongestNumber text number after)
    (hnumber : NumberText number amount) (hends : EndsNumber after)
    (hliteral : amount.Literal kind payload) :
    Numeral.read text = ⟨number, .word (.literal kind (String.ofList number) payload)⟩ := by
  obtain ⟨n, hn, rfl, rfl⟩ := Numeral.exists_regular hnumber
  rw [h.split, hn.read hends, Numeral.value_of_literal hliteral]

/-- In any other case something is wrong, and it is not the conversion. -/
theorem LongestNumber.read_refused {c : Char} {rest number after : List Char} {amount : Amount}
    (h : LongestNumber (c :: rest) number after) (hc : c.isDigit = true)
    (hnumber : NumberText number amount)
    (hrefused : ¬ (EndsNumber after ∧ ∃ kind payload, amount.Literal kind payload)) :
    ∃ (covered : List Char) (first : Fault) (others : List Fault),
      Numeral.read (c :: rest) = ⟨covered, .malformed first others⟩ ∧
        ∀ f ∈ first :: others, ∀ word, f.cause ≠ .realForm word := by
  by_cases hends : EndsNumber after
  · obtain ⟨n, hn, rfl, rfl⟩ := Numeral.exists_regular hnumber
    have hlarge : ¬ ∃ kind payload, n.amount.Literal kind payload :=
      fun hliteral => hrefused ⟨hends, hliteral⟩
    obtain ⟨cause, hcause, hvalue⟩ := hn.value_of_no_literal hlarge
    refine ⟨n.text, .atStart cause, [], ?_, List.forall_mem_singleton.2 hcause⟩
    rw [h.split, hn.read hends, hvalue]
  · let n := Numeral.ofText (c :: rest)
    cases hfaults : n.faults ((c :: rest).drop (n.text ++ n.glued).length) with
    | nil =>
        obtain ⟨hn, more, hsplit, hmore⟩ := Numeral.regular_of_faults_nil hc hfaults
        obtain ⟨-, rfl⟩ := h.eq_of_ends hn hsplit hmore
        exact absurd hmore hends
    | cons first others =>
        refine ⟨n.text ++ n.glued, first, others, ?_, fun f hf => ?_⟩
        · unfold Numeral.read
          simp only [n, hfaults]
        · rw [← hfaults] at hf
          exact Numeral.cause_ne_realForm hf

/-! ## Requests at a digit -/

theorem Word.begins_digit {c : Char} (hc : c.isDigit = true) : Word.begins c = false := by
  have hall : ∀ n < 10, Word.begins (Nat.digitChar n) = false := by decide
  obtain ⟨n, hn, rfl⟩ := exists_digitChar hc
  exact hall n hn

theorem Segment.read?_digit {c : Char} (hc : c.isDigit = true) (rest : List Char) :
    read? (c :: rest) = some (Numeral.read (c :: rest)) := by
  have hparts : partsWords c = false := by
    rw [Bool.eq_false_iff]
    intro hparts
    rw [isDigit_of_partsWords hparts] at hc
    exact absurd hc (by decide)
  rw [read?, Gap.read?_eq_none hparts, ofFirst, Word.begins_digit hc, hc]
  rfl

namespace TokenStream

/-- What a request does with a text that begins with a number: the number is the next token if it
ends there and fits, and otherwise some text is passed over with a report. -/
structure ReadsNumber (s : TokenStream) (p : Point) (text number after : List Char) : Prop where
  longest : LongestNumber text number after
  given : ∀ amount kind payload, NumberText number amount → EndsNumber after →
    amount.Literal kind payload → (s.before p text).next =
      (s.give ⟨[], .literal kind (String.ofList number) payload, ⟨p, s.source⟩⟩).before
        (p.after number) after
  refused : ∀ amount, NumberText number amount →
    ¬ (EndsNumber after ∧ ∃ kind payload, amount.Literal kind payload) →
    ∃ (covered rest : List Char) (first : Fault) (others : List Fault),
      text = covered ++ rest ∧ covered ≠ [] ∧
      (∀ f ∈ first :: others, ∀ word, f.cause ≠ .realForm word) ∧
      (s.before p text).next =
        ((s.note ((first :: others).map (·.diagnose s.source p covered))).before
          (p.after covered) rest).next.faulty
  converted : let n := Numeral.ofText text
    n.faults (text.drop (n.text ++ n.glued).length) = [] → n.parts ≠ [] →
      let standard := n.digits ++ n.parts.flatMap NumeralPart.standardText
      StandardReal standard ∧ ∃ x, Binary64.ofText? standard = some x

theorem readsNumber (s : TokenStream) (p : Point) {c : Char} (hc : c.isDigit = true)
    (rest : List Char) :
    ∃ number after, s.ReadsNumber p (c :: rest) number after := by
  obtain ⟨number, after, hlongest⟩ := exists_longestNumber hc rest
  have hread := Segment.read?_digit hc rest
  refine ⟨number, after, hlongest, ?_, ?_, ?_⟩
  · intro amount kind payload hnumber hends hliteral
    rw [hlongest.read_literal hnumber hends hliteral, hlongest.split] at hread
    rw [hlongest.split]
    exact s.next_before_word p hread
  · intro amount hnumber hrefused
    obtain ⟨covered, first, others, hform, hcauses⟩ := hlongest.read_refused hc hnumber hrefused
    rw [hform] at hread
    obtain ⟨left, hfronts⟩ := Segment.read?_fronts hread
    have hsplit : c :: rest = covered ++ left := hfronts.split
    refine ⟨covered, left, first, others, hsplit, hfronts.nonempty, hcauses, ?_⟩
    rw [hsplit] at hread ⊢
    exact s.next_before_malformed p hread
  · intro n hfaults hparts standard
    obtain ⟨hn, -⟩ := Numeral.regular_of_faults_nil hc hfaults
    have hstandard := hn.standardReal hparts
    exact ⟨hstandard, hstandard.converts⟩

/-- A hexadecimal number before a semicolon. -/
theorem readsNumber_hexadecimal :
    let s := ofText "Sum" ""
    '0'.isDigit = true ∧
      (∃ number after, s.ReadsNumber ⟨1, 5⟩ ('0' :: "x1F;".toList) number after) ∧
      (s.before ⟨1, 5⟩ ('0' :: "x1F;".toList)).next.current =
        ⟨.literal .integer "0x1F" (.int 31), ⟨⟨1, 5⟩, "Sum"⟩⟩ :=
  ⟨rfl, readsNumber _ _ rfl _, by decide +kernel⟩

end TokenStream

end Lexical

end MiniJava
