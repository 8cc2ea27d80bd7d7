import MiniJava.Proofs.Lexical.Newline
/-!
# Newlines in words and messages

A word has no newline in it unless it is a character or a string, and a message about a word has
none unless it tells that a newline was found in place of an exponent.
-/

namespace MiniJava

def newlines (s : String) : Nat := s.toList.count '\n'

theorem newlines_append (s t : String) : newlines (s ++ t) = newlines s + newlines t := by
  rw [newlines, String.toList_append, List.count_append, newlines, newlines]

theorem newlines_eq_zero {s : String} (h : '\n' ∉ s.toList) : newlines s = 0 :=
  List.count_eq_zero.2 h

theorem newlines_ofList {cs : List Char} (h : '\n' ∉ cs) : newlines (String.ofList cs) = 0 :=
  newlines_eq_zero (by rwa [String.toList_ofList])

theorem newlines_singleton {c : Char} (h : c ≠ '\n') : newlines (String.singleton c) = 0 := by
  refine newlines_eq_zero ?_
  rw [String.toList_singleton, List.mem_singleton]
  exact h.symm

def Lexeme.Unbroken (x : Lexeme) : Prop :=
  newlines x.text ≠ 0 → x.kind = .charLiteral ∨ x.kind = .stringLiteral

namespace Lexical

open Text

/-- The message has newlines in it only if a newline is what was found in place of an exponent. -/
def Cause.Unbroken (cause : Cause) : Prop :=
  newlines cause.message ≠ 0 → cause = .noExponentDigit (some '\n')

def Content.Unbroken : Content → Prop
  | .gap => True
  | .word lexeme => lexeme.Unbroken
  | .malformed first others => ∀ f ∈ first :: others, f.cause.Unbroken

theorem Cause.unbroken {cause : Cause} (h : newlines cause.message = 0) : cause.Unbroken :=
  fun hne => absurd h hne

theorem Content.unbroken_atStart {cause : Cause} (h : cause.Unbroken) :
    (Content.malformed (.atStart cause) []).Unbroken :=
  List.forall_mem_singleton.2 h

theorem newline_not_mem_of_all {p : Char → Bool} (hp : p '\n' = false) {cs : List Char}
    (h : ∀ c ∈ cs, p c = true) : '\n' ∉ cs := by
  intro hmem
  rw [h _ hmem] at hp
  exact absurd hp nofun

theorem newline_not_mem_takeWhile {p : Char → Bool} (hp : p '\n' = false) (cs : List Char) :
    '\n' ∉ cs.takeWhile p :=
  newline_not_mem_of_all hp fun _ => List.mem_takeWhile_imp

theorem unbroken_classify {cs : List Char} (h : '\n' ∉ cs) :
    (Lexicon.classify (String.ofList cs)).Unbroken := by
  intro hne
  rw [Lexicon.classify_text] at hne
  exact absurd (newlines_ofList h) hne

/-! ## Words -/

namespace Word

theorem newline_not_mem_extent (text : List Char) : '\n' ∉ extent text := by
  have hrun : '\n' ∉ text.takeWhile isWordChar := newline_not_mem_takeWhile (by decide) text
  unfold extent
  dsimp only
  split
  · exact List.not_mem_append hrun (by decide)
  · exact hrun

theorem read_unbroken (text : List Char) : (read text).content.Unbroken := by
  have hextent := newline_not_mem_extent text
  unfold read
  dsimp only
  split
  · refine Content.unbroken_atStart (Cause.unbroken ?_)
    show newlines ("Identifiers can not begin with an underscore " ++ _) = 0
    rw [newlines_append, newlines_ofList hextent]
    decide +kernel
  · exact unbroken_classify hextent

end Word

/-! ## Quoted literals -/

namespace Quote

theorem read_unbroken (q : Quote) (rest : List Char) : (q.read rest).content.Unbroken := by
  unfold read
  split
  · unfold content
    split
    · exact fun _ => .inr rfl
    · exact fun _ => .inl rfl
    · exact Content.unbroken_atStart (Cause.unbroken (by decide +kernel))
  · cases q <;> exact Content.unbroken_atStart (Cause.unbroken (by decide +kernel))

end Quote

/-! ## Operators and delimiters -/

namespace Symbol

theorem read_unbroken {c : Char} (hc : c ≠ '\n') (rest : List Char) :
    (read c rest).content.Unbroken := by
  rcases read_cases c rest with ⟨text, hspelled⟩ | hunknown
  · have hnewline : '\n' ∉ text := by
      intro hmem
      rw [spelled?_eq_none hmem (by decide)] at hspelled
      exact absurd hspelled nofun
    rw [spelled?_eq hspelled]
    exact unbroken_classify hnewline
  · rw [hunknown]
    refine Content.unbroken_atStart (Cause.unbroken ?_)
    show newlines ("Unknown character " ++ _) = 0
    rw [newlines_append, newlines_singleton hc]
    decide +kernel

end Symbol

/-! ## Numbers -/

theorem Cause.unbroken_noExponentDigit (found : Option Char) :
    (Cause.noExponentDigit found).Unbroken := by
  cases found with
  | none => exact Cause.unbroken (by decide +kernel)
  | some c =>
      by_cases hc : c = '\n'
      · rw [hc]
        exact fun _ => rfl
      · refine Cause.unbroken ?_
        show newlines (_ ++ ("'" ++ String.singleton c ++ "'")) = 0
        rw [newlines_append, newlines_append, newlines_append, newlines_singleton hc]
        decide +kernel

theorem unbroken_ite {p : Prop} [Decidable p] {n : Nat} {cause : Cause} (h : cause.Unbroken) :
    ∀ f ∈ (if p then [(⟨n, cause⟩ : Fault)] else []), f.cause.Unbroken := by
  split
  · exact List.forall_mem_singleton.2 h
  · exact List.forall_mem_nil _

namespace NumeralPart

theorem Formed.newline_not_mem {radix : Radix} {part : NumeralPart} (h : part.Formed radix) :
    '\n' ∉ part.text := by
  cases h with
  | fraction h _ =>
      exact List.not_mem_cons_of_ne_of_not_mem (by decide) (newline_not_mem_of_all (by decide) h)
  | exponent h _ hmark hsign =>
      refine List.not_mem_cons_of_ne_of_not_mem ?_ (List.not_mem_append ?_ ?_)
      · rcases hmark with rfl | rfl <;> decide
      · intro hmem
        rcases hsign _ (Option.mem_toList.1 hmem) with heq | heq <;> exact absurd heq (by decide)
      · exact newline_not_mem_of_all (by decide) h

theorem faults_unbroken (radix : Radix) (after : List Char) (hasFraction hasExponent : Bool)
    (offset : Nat) (parts : List NumeralPart) :
    ∀ f ∈ faults radix after hasFraction hasExponent offset parts, f.cause.Unbroken := by
  induction parts generalizing hasFraction hasExponent offset with
  | nil => exact List.forall_mem_nil _
  | cons part parts ih =>
      cases part with
      | fraction digits =>
          refine List.forall_mem_append.2 ⟨List.forall_mem_append.2
            ⟨List.forall_mem_append.2 ⟨unbroken_ite ?_, unbroken_ite ?_⟩, ?_⟩, ih _ _ _⟩
          · exact Cause.unbroken (by decide +kernel)
          · exact Cause.unbroken (by decide +kernel)
          · cases radix with
            | decimal => exact List.forall_mem_nil _
            | octal =>
                have hcause : Cause.octalFraction.Unbroken := Cause.unbroken (by decide +kernel)
                exact List.forall_mem_singleton.2 hcause
            | hexadecimal =>
                have hcause : Cause.hexadecimalFraction.Unbroken :=
                  Cause.unbroken (by decide +kernel)
                exact List.forall_mem_singleton.2 hcause
      | exponent mark sign digits =>
          refine List.forall_mem_append.2 ⟨List.forall_mem_append.2
            ⟨unbroken_ite ?_, unbroken_ite ?_⟩, ih _ _ _⟩
          · exact Cause.unbroken (by decide +kernel)
          · exact Cause.unbroken_noExponentDigit _

end NumeralPart

namespace Numeral

theorem newline_not_mem_radixMark (s : List Char) : '\n' ∉ (radixMark s).2 := by
  unfold radixMark
  split
  · next c _ =>
    split
    · next hc => rcases hc with rfl | rfl <;> decide
    · split <;> decide
  · decide

theorem newline_not_mem_ofText (s : List Char) :
    '\n' ∉ (ofText s).text ∧ '\n' ∉ (ofText s).glued := by
  refine ⟨List.not_mem_append (List.not_mem_append ?_ ?_) ?_, ?_⟩
  · exact newline_not_mem_radixMark s
  · exact newline_not_mem_takeWhile (radix_isDigit_of_partsWords (by decide) _) _
  · intro hmem
    obtain ⟨part, hpart, hchar⟩ := List.mem_flatMap.1 hmem
    exact (formed_ofText s part hpart).newline_not_mem hchar
  · exact newline_not_mem_takeWhile (by decide) _

theorem faults_unbroken {n : Numeral} (htext : '\n' ∉ n.text) (hglued : '\n' ∉ n.glued)
    (after : List Char) : ∀ f ∈ n.faults after, f.cause.Unbroken := by
  have hword := newlines_ofList (List.not_mem_append htext hglued)
  have hletters :
      (Cause.letterAfterNumber n.radix (String.ofList (n.text ++ n.glued))).Unbroken := by
    refine Cause.unbroken ?_
    cases n.radix <;>
    · show newlines (_ ++ String.ofList (n.text ++ n.glued)) = 0
      rw [newlines_append, hword]
      decide +kernel
  have hparts := NumeralPart.faults_unbroken n.radix (n.glued ++ after) false false
    (n.mark.length + n.digits.length) n.parts
  have hdigit : Cause.noHexadecimalDigit.Unbroken := Cause.unbroken (by decide +kernel)
  have hbare := unbroken_ite (p := n.radix = .hexadecimal ∧ n.digits = [])
    (n := n.mark.length + n.digits.length) hdigit
  have hfound := List.forall_mem_append.2 ⟨hbare, hparts⟩
  unfold faults
  dsimp only
  generalize (_ : List Fault) ++ NumeralPart.faults _ _ _ _ _ _ = found at hfound ⊢
  split
  · exact List.forall_mem_singleton.2 hletters
  · exact hfound

theorem value_unbroken {n : Numeral} (h : '\n' ∉ n.text) : n.value.Unbroken := by
  have hword := newlines_ofList h
  have hliteral : ∀ kind payload,
      (Content.word (.literal kind (String.ofList n.text) payload)).Unbroken :=
    fun _ _ hne => absurd hword hne
  unfold value
  dsimp only
  split
  · split
    · exact hliteral _ _
    · refine Content.unbroken_atStart (Cause.unbroken ?_)
      show newlines ("Integer literal: " ++ _ ++ " is outside the range of the \"int\".") = 0
      rw [newlines_append, newlines_append, hword]
      decide +kernel
  split
  · refine Content.unbroken_atStart (Cause.unbroken ?_)
    show newlines ("Floating-point number literal: " ++ _ ++
      " can not be converted to the \"double\".") = 0
    rw [newlines_append, newlines_append, hword]
    decide +kernel
  · split
    · exact hliteral _ _
    · refine Content.unbroken_atStart (Cause.unbroken ?_)
      show newlines ("Floating-point number literal: " ++ _ ++
        " is outside the range of the \"double\".") = 0
      rw [newlines_append, newlines_append, hword]
      decide +kernel

theorem read_unbroken (s : List Char) : (read s).content.Unbroken := by
  obtain ⟨htext, hglued⟩ := newline_not_mem_ofText s
  have hfaults := faults_unbroken htext hglued
    (s.drop ((ofText s).text ++ (ofText s).glued).length)
  unfold read
  dsimp only
  split
  · exact value_unbroken htext
  · next hcons =>
    rw [hcons] at hfaults
    exact hfaults

end Numeral

/-! ## Whole texts -/

theorem Gap.read?_unbroken {text : List Char} {g : Segment} (h : Gap.read? text = some g) :
    g.content.Unbroken := by
  unfold Gap.read? at h
  split at h
  · obtain rfl := Option.some.inj h
    trivial
  · obtain rfl := Option.some.inj h
    unfold blockComment
    split
    · trivial
    · exact Content.unbroken_atStart (Cause.unbroken (by decide +kernel))
  · split at h
    · obtain rfl := Option.some.inj h
      trivial
    · exact absurd h nofun
  · exact absurd h nofun

theorem Segment.read?_unbroken {text : List Char} {g : Segment}
    (h : Segment.read? text = some g) : g.content.Unbroken := by
  cases text with
  | nil => exact absurd h nofun
  | cons c rest =>
      rcases Segment.read?_cases h with
        hgap | ⟨hgap, ⟨-, rfl⟩ | ⟨-, rfl⟩ | ⟨q, -, rfl⟩ | ⟨-, rfl⟩⟩
      · exact Gap.read?_unbroken hgap
      · exact Word.read_unbroken _
      · exact Numeral.read_unbroken _
      · exact Quote.read_unbroken _ _
      · apply Symbol.read_unbroken
        rintro rfl
        exact absurd hgap nofun

theorem Segmented.unbroken {text : List Char} {gs : List Segment} (h : Segmented text gs)
    (source : String) (p : Point) :
    (∀ t ∈ (Readings.ofSegments source p gs).tokens, t.Unbroken ∧ t.location.source = source) ∧
      ∀ d ∈ (Readings.ofSegments source p gs).diagnostics, d.location.source = source ∧
        (newlines d.message ≠ 0 → d.message = (Cause.noExponentDigit (some '\n')).message) := by
  induction h generalizing p with
  | nil => exact ⟨List.forall_mem_nil _, List.forall_mem_nil _⟩
  | @cons text rest g gs read fronts _ ih =>
      have hg := Segment.read?_unbroken read
      obtain ⟨hlater, hreported⟩ := ih (p.after g.text)
      obtain ⟨htokens, hfound, -⟩ := Readings.ofSegments_cons source p g gs
      rw [htokens, hfound]
      refine ⟨List.forall_mem_append.2 ⟨?_, hlater⟩, List.forall_mem_append.2 ⟨?_, hreported⟩⟩
      · unfold Segment.tokens
        cases hc : g.content with
        | word lexeme =>
            rw [hc] at hg
            exact List.forall_mem_singleton.2 ⟨hg, rfl⟩
        | _ => exact List.forall_mem_nil _
      · unfold Segment.diagnostics
        cases hc : g.content with
        | malformed first others =>
            rw [hc] at hg
            refine List.forall_mem_map.2 fun f hf => ⟨rfl, fun hne => ?_⟩
            exact congrArg Cause.message (hg f hf hne)
        | _ => exact List.forall_mem_nil _

end Lexical

end MiniJava
