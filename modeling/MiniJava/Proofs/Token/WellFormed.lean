import MiniJava.Token.Lexicon
/-!
# Well-formed lexemes

The lexemes that a source can yield are words classified by the lexicon and literals
that carry their value.  In such a lexeme the terminal of a reserved word determines
everything else.
-/

namespace MiniJava

def Terminal.lexeme (x : Terminal) : Lexeme := Lexicon.classify (Lexicon.spelling x)

def Lexeme.name (text : String) : Lexeme := ⟨.identifier, .unreserved, text, .none, -1⟩

def TokenKind.isReserved : TokenKind → Bool
  | .keyword | .boolean | .dataType | .operator | .delimiter => true
  | _ => false

def TokenKind.isLiteral : TokenKind → Bool
  | .integer | .real | .charLiteral | .stringLiteral => true
  | _ => false

theorem TokenKind.isLiteral_eq_false {k : TokenKind} (h : k = .identifier ∨ k.isReserved = true) :
    k.isLiteral = false := by
  revert h
  cases k <;> decide

namespace Lexicon

theorem spelling_terminal : ∀ e ∈ entries, spelling e.terminal = e.spelling := by
  decide

theorem terminal_ne_unreserved : ∀ e ∈ entries, e.terminal ≠ .unreserved := by
  decide

theorem classify_text (word : String) : (classify word).text = word := by
  rw [classify]
  split <;> rfl

/-- A word is either a name or the one spelling of a terminal. -/
theorem classify_cases (word : String) :
    find? word = none ∧ classify word = .name word ∨
      ∃ x : Terminal, x ≠ .unreserved ∧ classify word = x.lexeme := by
  cases h : find? word with
  | none =>
      left
      exact ⟨rfl, by rw [classify, h]; rfl⟩
  | some e =>
      right
      have he : e ∈ entries := List.mem_of_find?_eq_some h
      have hword : e.spelling = word := by
        simpa using List.find?_some h
      refine ⟨e.terminal, terminal_ne_unreserved e he, ?_⟩
      rw [Terminal.lexeme, spelling_terminal e he, hword]

end Lexicon

namespace Terminal

theorem lexeme_terminal {x : Terminal} (h : x ≠ .unreserved) : x.lexeme.terminal = x := by
  revert h
  cases x <;> decide

theorem lexeme_isReserved {x : Terminal} (h : x ≠ .unreserved) :
    x.lexeme.kind.isReserved = true := by
  revert h
  cases x <;> decide

end Terminal

theorem Lexicon.kind_classify (word : String) :
    (classify word).kind = .identifier ∨ (classify word).kind.isReserved = true := by
  rcases classify_cases word with ⟨-, h⟩ | ⟨x, hx, h⟩
  · left
    rw [h]; rfl
  · right
    rw [h]
    exact Terminal.lexeme_isReserved hx

namespace Lexeme

/-- A word as the lexicon classifies it, or a literal with its value. -/
inductive WellFormed : Lexeme → Prop
  | word (text : String) : WellFormed (Lexicon.classify text)
  | integer (text : String) (n : Nat) : WellFormed (literal .integer text (.int n))
  | real (text : String) (x : Numeric.Binary64) : WellFormed (literal .real text (.real x))
  | char (c : Char) :
      WellFormed (literal .charLiteral (String.singleton c) (.int c.toNat))
  | string (text : String) : WellFormed (literal .stringLiteral text (.text text))

namespace WellFormed

variable {l : Lexeme}

theorem forms (h : l.WellFormed) :
    l = .name l.text ∨ (∃ x : Terminal, x ≠ .unreserved ∧ l = x.lexeme) ∨
      l.kind.isLiteral = true ∧ l = .literal l.kind l.text l.payload := by
  cases h with
  | word text =>
      rcases Lexicon.classify_cases text with ⟨-, h⟩ | ⟨x, hx, h⟩
      · left
        rw [h]; rfl
      · exact .inr (.inl ⟨x, hx, h⟩)
  | integer => exact .inr (.inr ⟨rfl, rfl⟩)
  | real => exact .inr (.inr ⟨rfl, rfl⟩)
  | char => exact .inr (.inr ⟨rfl, rfl⟩)
  | string => exact .inr (.inr ⟨rfl, rfl⟩)

theorem eq_lexeme (h : l.WellFormed) (hl : l.terminal ≠ .unreserved) :
    l = l.terminal.lexeme := by
  rcases h.forms with h | ⟨x, hx, h⟩ | ⟨-, h⟩
  · rw [h] at hl
    exact absurd rfl hl
  · rw [h, Terminal.lexeme_terminal hx]
  · rw [h] at hl
    exact absurd rfl hl

theorem isReserved_iff (h : l.WellFormed) :
    l.kind.isReserved = true ↔ l.terminal ≠ .unreserved := by
  rcases h.forms with h | ⟨x, hx, h⟩ | ⟨hk, h⟩
  · rw [h]
    simp [Lexeme.name, TokenKind.isReserved]
  · rw [h, Terminal.lexeme_terminal hx]
    exact ⟨fun _ => hx, fun _ => Terminal.lexeme_isReserved hx⟩
  · have hr : l.kind.isReserved = false := by
      revert hk
      cases l.kind <;> decide
    have ht : l.terminal = .unreserved := by rw [h]; rfl
    simp [hr, ht]

theorem eq_name (h : l.WellFormed) (hl : l.kind = .identifier) : l = .name l.text := by
  rcases h.forms with h | ⟨x, hx, h⟩ | ⟨hk, -⟩
  · exact h
  · have hk := Terminal.lexeme_isReserved hx
    rw [← h, hl] at hk
    exact absurd hk (by decide)
  · rw [hl] at hk
    exact absurd hk (by decide)

theorem kind_cases (h : l.WellFormed) :
    l.kind = .identifier ∨ l.kind.isReserved = true ∨ l.kind.isLiteral = true := by
  rcases h.forms with h | ⟨x, hx, h⟩ | ⟨hk, -⟩
  · left
    rw [h]; rfl
  · right; left
    rw [h]
    exact Terminal.lexeme_isReserved hx
  · exact .inr (.inr hk)

theorem kind_ne_endOfFile (h : l.WellFormed) : l.kind ≠ .endOfFile := by
  intro hend
  have hkind := h.kind_cases
  rw [hend] at hkind
  exact absurd hkind (by decide)

theorem kind_ne_unknown (h : l.WellFormed) : l.kind ≠ .unknown := by
  intro hunknown
  have hkind := h.kind_cases
  rw [hunknown] at hkind
  exact absurd hkind (by decide)

end WellFormed

end Lexeme

namespace Token

def Spells (t : Token) (x : Terminal) : Prop := t.toLexeme = x.lexeme

def Names (t : Token) (name : String) : Prop := t.toLexeme = .name name

def WellFormed (t : Token) : Prop := t.toLexeme.WellFormed

theorem Spells.terminal_eq {t : Token} {x : Terminal} (h : t.Spells x) (hx : x ≠ .unreserved) :
    t.terminal = x :=
  (congrArg Lexeme.terminal h).trans (Terminal.lexeme_terminal hx)

namespace WellFormed

variable {t : Token}

theorem spells (h : t.WellFormed) {x : Terminal} (hx : x ≠ .unreserved) (ht : t.terminal = x) :
    t.Spells x := by
  subst ht
  exact h.eq_lexeme hx

theorem names (h : t.WellFormed) (ht : t.kind = .identifier) : t.Names t.text :=
  h.eq_name ht

theorem spells_of_isReserved (h : t.WellFormed) (ht : t.kind.isReserved = true) :
    t.Spells t.terminal ∧ t.terminal.lexeme.kind = t.kind := by
  have hspells := h.spells (h.isReserved_iff.1 ht) rfl
  exact ⟨hspells, (congrArg Lexeme.kind hspells).symm⟩

end WellFormed

end Token

end MiniJava
