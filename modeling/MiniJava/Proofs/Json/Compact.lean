import MiniJava.Proofs.Json.NormalForm
/-!
# Texts of objects on one line

The compact texts in which every object begins with its type and every list stands behind a key,
as a grammar.  What is said of these texts follows from one induction over the grammar, whatever
is shown by them.
-/

namespace MiniJava.Json

open MiniJava.Lexical MiniJava.Numeric MiniJava.Text

/-! ## Words -/

section

variable {c : Char} {t after : List Char}

theorem isWordSign_of_isDigit (h : c.isDigit = true) : isWordSign c = true :=
  isWordSign_of_inNumeral (inNumeral_of_isDigit h)

/-- A character that neither begins a string nor opens or closes a bracket. -/
structure Inert (c : Char) : Prop where
  quote : c ≠ '\x22'
  opening : Bracket.ofOpening? c = none
  closing : Bracket.isClosing c = false

theorem Inert.ne_opening (h : Inert c) (b : Bracket) : c ≠ b.opening := by
  rintro rfl
  have hnone := h.opening
  cases b <;> exact absurd hnone (by decide)

theorem isBlank_of_isWordSign (h : isWordSign c = true) : isBlank c = false := by
  rw [isWordSign, Bool.and_eq_true, Bool.not_eq_true'] at h
  exact h.1

theorem inert_of_isWordSign (h : isWordSign c = true) : Inert c := by
  simp only [isWordSign, Bool.and_eq_true, Bool.not_eq_true', decide_eq_true_eq, List.mem_cons,
    List.not_mem_nil, or_false, not_or] at h
  obtain ⟨-, hquote, -, -, hsquare, hsquare', hcurly, hcurly'⟩ := h
  refine ⟨hquote, ?_, ?_⟩
  · simp [Bracket.ofOpening?, hcurly, hsquare]
  · simp [Bracket.isClosing, hcurly', hsquare']

theorem keptFigures_digits (d : Decimal) : ∀ c ∈ d.keptFigures, c.isDigit = true := by
  unfold Decimal.keptFigures
  split
  · exact List.forall_mem_singleton.2 rfl
  · next hkept =>
    intro c hc
    refine (digits_toDigits d.digits).2 c ?_
    have hmem := List.dropWhile_sublist (l := d.figures.reverse) (· == '0')
    exact List.mem_reverse.1 (hmem.subset (List.mem_reverse.1 hc))

theorem isWordSign_decimal (d : Decimal) :
    (∀ c ∈ d.positional, isWordSign c = true) ∧ ∀ c ∈ d.scientific, isWordSign c = true := by
  have hfigures : ∀ c ∈ d.keptFigures, isWordSign c = true :=
    fun c hc => isWordSign_of_isDigit (keptFigures_digits d c hc)
  have hzeros : ∀ n, ∀ c ∈ List.replicate n '0', isWordSign c = true :=
    fun n c hc => List.eq_of_mem_replicate hc ▸ rfl
  constructor
  · rw [Decimal.positional_eq]
    split
    · simp only [List.forall_mem_cons, List.forall_mem_append]
      exact ⟨rfl, rfl, hzeros _, hfigures⟩
    split
    · simp only [List.forall_mem_cons, List.forall_mem_append]
      exact ⟨fun c hc => hfigures c (List.mem_of_mem_take hc), rfl,
        fun c hc => hfigures c (List.mem_of_mem_drop hc)⟩
    · simp only [List.forall_mem_append]
      exact ⟨⟨hfigures, hzeros _⟩, List.all_eq_true.1 rfl⟩
  · have htail : ∀ c ∈ 'e' :: (toString (d.point - 1)).toList, isWordSign c = true :=
      List.forall_mem_cons.2 ⟨rfl, fun c hc =>
        isWordSign_of_inNumeral ((numeral_int _).forall_inNumeral c hc)⟩
    unfold Decimal.scientific
    dsimp only
    generalize d.keptFigures = figures at hfigures
    match figures, hfigures with
    | [], _ => exact htail
    | [f], h => exact List.forall_mem_cons.2 ⟨h f (List.mem_cons_self ..), htail⟩
    | f :: g :: fs, h =>
        obtain ⟨hf, hfs⟩ := List.forall_mem_cons.1 h
        simp only [List.forall_mem_cons, List.forall_mem_append] at hfs htail ⊢
        exact ⟨⟨hf, rfl, hfs⟩, htail⟩

theorem decimal_ne_nil (d : Decimal) : d.positional ≠ [] ∧ d.scientific ≠ [] := by
  constructor
  · rw [Decimal.positional_eq]
    split
    · exact List.cons_ne_nil _ _
    split <;> simp
  · unfold Decimal.scientific
    dsimp only
    split <;> simp

/-- Every real number is written as a word, one that is infinite or no number too. -/
theorem word_real (x : Binary64) : x.text ≠ [] ∧ ∀ c ∈ x.text, isWordSign c = true := by
  have hsigned : ∀ {t : List Char}, t ≠ [] → (∀ c ∈ t, isWordSign c = true) →
      (if x.negative then ['-'] else []) ++ t ≠ [] ∧
        ∀ c ∈ (if x.negative then ['-'] else []) ++ t, isWordSign c = true := by
    intro t hne ht
    refine ⟨List.append_ne_nil_of_right_ne_nil _ hne, List.forall_mem_append.2 ⟨?_, ht⟩⟩
    split
    · exact List.forall_mem_singleton.2 rfl
    · exact List.forall_mem_nil _
  unfold Binary64.text
  dsimp only
  split
  · exact ⟨List.cons_ne_nil _ _, List.all_eq_true.1 rfl⟩
  split
  · exact hsigned (List.cons_ne_nil _ _) (List.all_eq_true.1 rfl)
  split
  · exact hsigned (List.cons_ne_nil _ _) (List.all_eq_true.1 rfl)
  split
  · exact hsigned (decimal_ne_nil _).1 (isWordSign_decimal _).1
  · exact hsigned (decimal_ne_nil _).2 (isWordSign_decimal _).2

theorem word_int (n : Int) :
    (toString n).toList ≠ [] ∧ ∀ c ∈ (toString n).toList, isWordSign c = true := by
  have hnumeral := numeral_int n
  obtain ⟨c, rest, hhead, -⟩ := hnumeral.head
  exact ⟨hhead ▸ List.cons_ne_nil _ _, fun c hc =>
    isWordSign_of_inNumeral (hnumeral.forall_inNumeral c hc)⟩

theorem parts_characters (h : ∀ c ∈ t, c ≠ '\x22') (after : List Char) :
    parts (t ++ after) = t.map (fun c => [c]) ++ parts after := by
  induction t with
  | nil => rfl
  | cons c t ih =>
      obtain ⟨hc, ht⟩ := List.forall_mem_cons.1 h
      rw [List.cons_append, parts_character hc, ih ht]
      rfl

end

/-! ## Strings -/

theorem items_escape (c : Char) {body : List Char} (h : Quote.string.Items body) :
    Quote.string.Items (escape c ++ body) := by
  have hdigit : ∀ n < 16, n.digitChar ≠ '\x22' ∧ n.digitChar ≠ '\\' := by decide
  have hhex : ∀ n, Quote.string.Items (hex4 n ++ body) := by
    intro n
    have hplain : ∀ k {body : List Char}, Quote.string.Items body →
        Quote.string.Items ((k % 16).digitChar :: body) := fun k _ hbody =>
      have hne := hdigit (k % 16) (Nat.mod_lt _ (by decide))
      .plain hne.1 hne.2 hbody
    exact hplain _ (hplain _ (hplain _ (hplain _ h)))
  unfold escape
  split
  · exact .escaped h
  split
  · exact .escaped h
  split
  · exact .escaped h
  split
  · exact .escaped h
  split
  · exact .escaped h
  split
  · exact .escaped (hhex _)
  · next hquote hslash _ _ _ _ => exact .plain hquote hslash h

theorem closes_writeString (s : String) (after : List Char) :
    Quote.string.Closes (s.toList.flatMap escape ++ '\x22' :: after) (s.toList.flatMap escape)
      after := by
  refine ⟨?_, rfl⟩
  generalize s.toList = cs
  induction cs with
  | nil => exact .nil
  | cons c cs ih => exact items_escape c ih

theorem parts_writeString (s : String) (after : List Char) :
    parts (writeString s after) = writeString s [] :: parts after := by
  rw [writeString_eq, parts_quoted (closes_writeString s after), writeString_eq]

/-! ## The grammar -/

/-- What stands before an item on its line: the key of a member, and nothing in a list. -/
def lead : Option String → List Char
  | none => []
  | some k => writeString k [':', ' ']

theorem inert_colon : ∀ c ∈ [':', ' '], Inert c :=
  List.forall_mem_cons.2 ⟨⟨by decide, rfl, rfl⟩, List.forall_mem_singleton.2 ⟨by decide, rfl, rfl⟩⟩

theorem lead_some (k : String) (after : List Char) :
    lead (some k) ++ after = writeString k (':' :: ' ' :: after) := by
  rw [lead, writeString_append, writeString_append k (':' :: ' ' :: after)]
  simp

/-- What a text is: a list, another value, or the items of a list or an object. -/
inductive Piece where
  | list
  | other
  | items
  deriving DecidableEq

/-- The texts on one line, with the types of the objects that begin in them. -/
inductive Compact : Piece → List String → List Char → Prop
  | word {t : List Char} (hne : t ≠ []) (h : ∀ c ∈ t, isWordSign c = true) : Compact .other [] t
  | string (s : String) : Compact .other [] (writeString s [])
  | empty : Compact .list [] ['[', ']']
  | list {tags : List String} {t : List Char} (h : Compact .items tags t) :
      Compact .list tags ('[' :: (t ++ [']']))
  | object {tag : String} {tags : List String} {rest : List Char}
      (h : Compact .items tags (lead (some "type") ++ writeString tag rest)) :
      Compact .other (tag :: tags)
        ('\x7b' :: (lead (some "type") ++ writeString tag rest ++ ['\x7d']))
  | one {key : Option String} {piece : Piece} {tags : List String} {t : List Char}
      (hpiece : piece = .other ∨ piece = .list ∧ key.isSome) (h : Compact piece tags t) :
      Compact .items tags (lead key ++ t)
  | more {key : Option String} {piece : Piece} {tags tags' : List String} {t ts : List Char}
      (hpiece : piece = .other ∨ piece = .list ∧ key.isSome) (h : Compact piece tags t)
      (later : Compact .items tags' ts) :
      Compact .items (tags ++ tags') (lead key ++ (t ++ ',' :: ' ' :: ts))

theorem Compact.head {piece : Piece} {tags : List String} {t : List Char}
    (h : Compact piece tags t) :
    ∃ c rest, t = c :: rest ∧ isBlank c = false ∧ Bracket.isClosing c = false := by
  have hlead : ∀ {key : Option String} {t : List Char},
      (∃ c rest, t = c :: rest ∧ isBlank c = false ∧ Bracket.isClosing c = false) →
        ∃ c rest, lead key ++ t = c :: rest ∧ isBlank c = false ∧ Bracket.isClosing c = false := by
    intro key t ht
    cases key with
    | none => exact ht
    | some k => exact ⟨'\x22', _, rfl, rfl, rfl⟩
  induction h with
  | @word t hne h =>
      obtain ⟨c, rest, rfl⟩ := List.exists_cons_of_ne_nil hne
      have hc := h c (List.mem_cons_self ..)
      exact ⟨c, rest, rfl, isBlank_of_isWordSign hc, (inert_of_isWordSign hc).closing⟩
  | string s => exact ⟨'\x22', _, rfl, rfl, rfl⟩
  | empty => exact ⟨'[', _, rfl, rfl, rfl⟩
  | list => exact ⟨'[', _, rfl, rfl, rfl⟩
  | object => exact ⟨'\x7b', _, rfl, rfl, rfl⟩
  | one _ _ ih => exact hlead ih
  | more _ _ _ ih _ =>
      obtain ⟨c, rest, rfl, hc⟩ := ih
      exact hlead ⟨c, _, rfl, hc⟩

/-! ## Texts of values -/

theorem writeItems_cons (j k : Json) (ks : List Json) (after : List Char) :
    writeItems (j :: k :: ks) after = write j (',' :: ' ' :: writeItems (k :: ks) after) := by
  rw [writeItems]
  exact List.cons_ne_nil _ _

theorem writeFields_cons (k : String) (j : Json) (f : String × Json) (fs : List (String × Json))
    (after : List Char) : writeFields ((k, j) :: f :: fs) after =
      lead (some k) ++ write j (',' :: ' ' :: writeFields (f :: fs) after) := by
  rw [writeFields, lead_some]
  exact List.cons_ne_nil _ _

mutual

/-- What follows a value is not changed by it. -/
theorem write_append : ∀ (j : Json) (after : List Char), write j after = write j [] ++ after
  | null, _ => rfl
  | bool true, _ => rfl
  | bool false, _ => rfl
  | int n, after => by simp [write]
  | real x, after => by simp [write]
  | string s, after => writeString_append s after
  | array js, after => by
    rw [write, write, writeItems_append js (']' :: after), writeItems_append js [']']]
    simp
  | object fs, after => by
    rw [write, write, writeFields_append fs ('\x7d' :: after), writeFields_append fs ['\x7d']]
    simp

theorem writeItems_append : ∀ (js : List Json) (after : List Char),
    writeItems js after = writeItems js [] ++ after
  | [], _ => rfl
  | [j], after => write_append j after
  | j :: k :: ks, after => by
    rw [writeItems_cons, writeItems_cons, writeItems_append (k :: ks) after, write_append j,
      write_append j (',' :: ' ' :: writeItems (k :: ks) [])]
    simp

theorem writeFields_append : ∀ (fs : List (String × Json)) (after : List Char),
    writeFields fs after = writeFields fs [] ++ after
  | [], _ => rfl
  | [(k, j)], after => by
    rw [writeFields, writeFields, ← lead_some, ← lead_some, write_append j after, List.append_assoc]
  | (k, j) :: f :: fs, after => by
    rw [writeFields_cons, writeFields_cons, writeFields_append (f :: fs) after, write_append j,
      write_append j (',' :: ' ' :: writeFields (f :: fs) [])]
    simp

end

def Slot (tags : List String) (j : Json) : Prop :=
  ∃ piece, piece ≠ .items ∧ Compact piece tags (write j [])

inductive Slots : List String → List (String × Json) → Prop
  | nil : Slots [] []
  | cons {tags tags' : List String} {k : String} {j : Json} {fs : List (String × Json)}
      (h : Slot tags j) (later : Slots tags' fs) : Slots (tags ++ tags') ((k, j) :: fs)

theorem Slot.piece {tags : List String} {j : Json} (h : Slot tags j) (k : String) :
    ∃ piece, (piece = .other ∨ piece = .list ∧ (some k).isSome) ∧
      Compact piece tags (write j []) := by
  obtain ⟨piece, hpiece, hcompact⟩ := h
  cases piece with
  | list => exact ⟨.list, .inr ⟨rfl, rfl⟩, hcompact⟩
  | other => exact ⟨.other, .inl rfl, hcompact⟩
  | items => exact absurd rfl hpiece

theorem compact_items {α : Type} {json : α → Json} {tags : α → List String} {a : α} {as : List α}
    (h : ∀ b ∈ a :: as, Compact .other (tags b) (write (json b) [])) :
    Compact .items ((a :: as).flatMap tags) (writeItems ((a :: as).map json) []) := by
  induction as generalizing a with
  | nil =>
      have hone : Compact .items (tags a) (lead none ++ write (json a) []) :=
        .one (.inl rfl) (h a (List.mem_cons_self ..))
      rwa [List.flatMap_singleton]
  | cons b bs ih =>
      obtain ⟨ha, hbs⟩ := List.forall_mem_cons.1 h
      rw [List.map_cons, List.map_cons, writeItems_cons, write_append, List.flatMap_cons]
      have hmore : Compact .items (tags a ++ (b :: bs).flatMap tags) (lead none ++
          (write (json a) [] ++ ',' :: ' ' :: writeItems ((b :: bs).map json) [])) :=
        .more (.inl rfl) ha (ih hbs)
      exact hmore

theorem slot_array {α : Type} {json : α → Json} {tags : α → List String} {as : List α}
    (h : ∀ a ∈ as, Compact .other (tags a) (write (json a) [])) :
    Slot (as.flatMap tags) (array (as.map json)) := by
  refine ⟨.list, by decide, ?_⟩
  cases as with
  | nil => exact .empty
  | cons a as =>
      rw [write, writeItems_append]
      exact .list (compact_items h)

theorem compact_fields {k : String} {j : Json} {fs : List (String × Json)} {tags : List String}
    (h : Slots tags ((k, j) :: fs)) : Compact .items tags (writeFields ((k, j) :: fs) []) := by
  induction fs generalizing k j tags with
  | nil =>
      obtain - | ⟨hslot, hnone⟩ := h
      obtain ⟨piece, hpiece, hcompact⟩ := hslot.piece k
      cases hnone
      rw [List.append_nil, writeFields, ← lead_some]
      exact .one hpiece hcompact
  | cons f fs ih =>
      obtain - | ⟨hslot, hlater⟩ := h
      obtain ⟨piece, hpiece, hcompact⟩ := hslot.piece k
      rw [writeFields_cons, write_append]
      exact .more hpiece hcompact (ih hlater)

theorem compact_object {name : String} {fs : List (String × Json)} {tags : List String}
    (h : Slots tags fs) :
    Compact .other (name :: tags) (write (object (("type", string name) :: fs)) []) := by
  have hslots : Slots ([] ++ tags) (("type", string name) :: fs) :=
    .cons ⟨.other, by decide, .string name⟩ h
  have hitems := compact_fields hslots
  obtain ⟨rest, hrest⟩ : ∃ rest, writeFields (("type", string name) :: fs) [] =
      lead (some "type") ++ writeString name rest := by
    cases fs with
    | nil => exact ⟨[], by rw [writeFields, ← lead_some]; rfl⟩
    | cons f fs =>
        refine ⟨',' :: ' ' :: writeFields (f :: fs) [], ?_⟩
        rw [writeFields_cons]
        rfl
  rw [write, writeFields_append, hrest]
  rw [hrest] at hitems
  exact .object hitems

end MiniJava.Json
