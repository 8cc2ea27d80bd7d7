import MiniJava.Proofs.Json.Numerals
import MiniJava.Proofs.Lexical.Spacing
/-!
# Real numbers of a source

No numeral has a sign of its own, and one beyond the largest finite value is rejected.  So the real
numbers that a source writes are finite and have a clear sign bit.
-/

namespace MiniJava

open Numeric

namespace Numeric

namespace Binary64

theorem negative_ofMagnitude (negative : Bool) (bits : Nat) :
    (ofMagnitude negative bits).negative = negative := by
  unfold ofMagnitude
  split <;> rfl

theorem negative_toBinary64 (d : Decimal) (negative : Bool) :
    (d.toBinary64 negative).negative = negative := by
  unfold Decimal.toBinary64
  split
  · rfl
  split
  · rfl
  split
  · rfl
  · exact negative_ofMagnitude negative _

/-- A text without a minus sign in front reads as a value with a clear sign bit. -/
theorem negative_of_ofText {text : List Char} {x : Binary64} (h : ofText? text = some x)
    (hsign : text.head? ≠ some '-') : x.negative = false := by
  have hunsigned : ∀ {body : List Char},
      (if String.ofList (body.map Char.toLower) = "inf" ∨
          String.ofList (body.map Char.toLower) = "infinity" then some (infinity false)
        else if String.ofList (body.map Char.toLower) = "nan" then some (nan false)
        else (Decimal.ofText? body).map (·.toBinary64 false)) = some x → x.negative = false := by
    intro body hbody
    split at hbody
    · obtain rfl := Option.some.inj hbody
      rfl
    split at hbody
    · obtain rfl := Option.some.inj hbody
      rfl
    · obtain ⟨d, -, rfl⟩ := Option.map_eq_some_iff.1 hbody
      exact negative_toBinary64 d false
  unfold ofText? at h
  dsimp only at h
  split at h
  · exact hunsigned h
  · exact absurd rfl hsign
  · exact hunsigned h

end Binary64

end Numeric

def Lexeme.Printable (l : Lexeme) : Prop := ∀ x, l.payload = .real x → x.Printable

theorem Lexicon.printable_classify (word : String) : (classify word).Printable := by
  intro x h
  unfold classify at h
  split at h <;> exact absurd h nofun

namespace Lexical

open Text

def Content.Printable : Content → Prop
  | .word lexeme => lexeme.Printable
  | _ => True

theorem Content.Plain.printable {content : Content} (h : content.Plain) : content.Printable := by
  cases h with
  | word => exact Lexicon.printable_classify _
  | char => exact fun _ h => absurd h nofun
  | string => exact fun _ h => absurd h nofun
  | gap => trivial
  | malformed => trivial

namespace Numeral

theorem value_printable {n : Numeral}
    (h : (n.digits ++ n.parts.flatMap NumeralPart.standardText).head? ≠ some '-') :
    n.value.Printable := by
  unfold value
  dsimp only
  split
  · split
    · exact fun _ hreal => absurd hreal nofun
    · trivial
  split
  · trivial
  · next x hx =>
    split
    · next hfinite =>
      intro y hy
      obtain rfl := Payload.real.inj hy
      exact ⟨hfinite, Binary64.negative_of_ofText hx h⟩
    · trivial

theorem head_text (text : List Char) :
    ((ofText text).digits ++ (ofText text).parts.flatMap NumeralPart.standardText).head? ≠
      some '-' := by
  intro hhead
  rw [List.head?_append] at hhead
  rcases Option.or_eq_some_iff.1 hhead with hdigits | ⟨-, hparts⟩
  · have hdigit : (ofText text).radix.isDigit '-' = true :=
      List.mem_takeWhile_imp (List.mem_of_head? hdigits)
    generalize (ofText text).radix = radix at hdigit
    cases radix <;> exact absurd hdigit (by decide)
  · cases hfirst : (ofText text).parts with
    | nil =>
        rw [hfirst] at hparts
        exact absurd hparts nofun
    | cons part parts =>
        rw [hfirst] at hparts
        cases part <;> exact absurd (Option.some.inj hparts) (by decide)

theorem read_printable (text : List Char) : (read text).content.Printable := by
  unfold read
  dsimp only
  split
  · exact value_printable (head_text text)
  · trivial

end Numeral

theorem Segment.read?_printable {text : List Char} {g : Segment}
    (h : Segment.read? text = some g) : g.content.Printable := by
  rcases Segment.read?_plain h with hplain | rfl
  · exact hplain.printable
  · exact Numeral.read_printable text

/-- What a text is read as is printable. -/
theorem Legible.printable {l : Lexeme} (h : Legible l) : l.Printable := by
  obtain ⟨_, hread⟩ := h
  exact Segment.read?_printable hread

theorem printable_tokens (source : String) (text : List Char) :
    ∀ t ∈ (Readings.ofText source text).tokens, t.toLexeme.Printable :=
  fun t ht => ((segmented_segments text).legible source _ t ht).printable

end Lexical

end MiniJava
