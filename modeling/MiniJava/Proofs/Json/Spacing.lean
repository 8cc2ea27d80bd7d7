import MiniJava.Json.Layout
import MiniJava.Proofs.Json.Numerals
import MiniJava.Proofs.Json.Unambiguity
/-!
# Spaced texts

The compact text of a JSON value denotes it, and so does any text that comes of the compact one by
other blanks between its parts.
-/

namespace MiniJava.Json

open MiniJava.Text

/-! ## The value of a JSON tree -/

mutual

def value : Json → Value
  | null => .null
  | bool b => .bool b
  | int n => .number (toString n).toList
  | real x => .number x.text
  | string s => .string s
  | array items => .array (valueAll items)
  | object fields => .object (valueFields fields)

def valueAll : List Json → List Value
  | [] => []
  | j :: js => value j :: valueAll js

def valueFields : List (String × Json) → List (String × Value)
  | [] => []
  | (k, j) :: fs => (k, value j) :: valueFields fs

end

mutual

def reals : Json → List Numeric.Binary64
  | real x => [x]
  | array items => realsAll items
  | object fields => realsFields fields
  | _ => []

def realsAll : List Json → List Numeric.Binary64
  | [] => []
  | j :: js => reals j ++ realsAll js

def realsFields : List (String × Json) → List Numeric.Binary64
  | [] => []
  | (_, j) :: fs => reals j ++ realsFields fs

end

@[simp] theorem valueAll_eq_map (js : List Json) : valueAll js = js.map value := by
  induction js with
  | nil => rfl
  | cons j js ih => rw [valueAll, ih, List.map_cons]

@[simp] theorem valueFields_eq_map (fs : List (String × Json)) :
    valueFields fs = fs.map fun f => (f.1, f.2.value) := by
  induction fs with
  | nil => rfl
  | cons f fs ih => rw [valueFields, ih, List.map_cons]

@[simp] theorem realsAll_eq_flatMap (js : List Json) : realsAll js = js.flatMap reals := by
  induction js with
  | nil => rfl
  | cons j js ih => rw [realsAll, ih, List.flatMap_cons]

@[simp] theorem realsFields_eq_flatMap (fs : List (String × Json)) :
    realsFields fs = fs.flatMap (·.2.reals) := by
  induction fs with
  | nil => rfl
  | cons f fs ih => rw [realsFields, ih, List.flatMap_cons]

/-! ## Strings -/

theorem hexadecimal_digitChar : ∀ n < 16, Radix.hexadecimal.value? n.digitChar = some n := by
  decide

theorem codeUnit_hex4 {n : Nat} (h : n < 65536) : CodeUnit n (hex4 n) := by
  have hvalue : ∀ k, Radix.hexadecimal.value? (k % 16).digitChar = some (k % 16) :=
    fun k => hexadecimal_digitChar _ (Nat.mod_lt _ (by decide))
  refine ⟨rfl, ?_, ?_⟩
  · simp [hex4, Radix.isDigit, hvalue]
  · simp only [hex4, Radix.number, List.map_cons, List.map_nil, List.foldl_cons, List.foldl_nil,
      hvalue, Option.getD_some, Radix.base]
    omega

theorem written_escape (c : Char) : Written c (escape c) := by
  unfold escape
  split
  · next h => subst h; exact .short (by decide)
  split
  · next h => subst h; exact .short (by decide)
  split
  · next h => subst h; exact .short (by decide)
  split
  · next h => subst h; exact .short (by decide)
  split
  · next h => subst h; exact .short (by decide)
  split
  · next h =>
    refine .code (codeUnit_hex4 ?_)
    simp only [isControl, Bool.or_eq_true, Bool.and_eq_true, decide_eq_true_eq] at h
    omega
  · next hquote hslash _ _ _ h =>
    refine .plain hquote hslash ?_
    simp only [isControl, Bool.or_eq_true, Bool.and_eq_true, decide_eq_true_eq] at h
    omega

theorem characters_escape (cs : List Char) : Characters cs (cs.flatMap escape) := by
  induction cs with
  | nil => exact .nil
  | cons c cs ih => exact .cons (written_escape c) ih

theorem writeString_eq (s : String) (after : List Char) :
    writeString s after = '\x22' :: (s.toList.flatMap escape ++ '\x22' :: after) := by
  have hfold : ∀ cs : List Char, cs.foldr (fun c rest => escape c ++ rest) ('\x22' :: after) =
      cs.flatMap escape ++ '\x22' :: after := by
    intro cs
    induction cs with
    | nil => rfl
    | cons c cs ih => rw [List.foldr_cons, ih, List.flatMap_cons, List.append_assoc]
  rw [writeString, hfold]

theorem writeString_append (s : String) (after : List Char) :
    writeString s after = writeString s [] ++ after := by
  rw [writeString_eq, writeString_eq]
  simp

theorem quoted_writeString (s : String) : Quoted s (writeString s []) := by
  rw [writeString_eq]
  exact .intro (characters_escape _)

/-! ## Blanks around items -/

section

variable {α : Type} {item : α → List Char → Prop}

/-- Blanks around a text of an item leave it a text of the item. -/
def Absorbs (item : α → List Char → Prop) : Prop :=
  ∀ ⦃a t spaces⦄, item a t → Spaces spaces → item a (spaces ++ t) ∧ item a (t ++ spaces)

theorem Spaces.append {s t : List Char} (hs : Spaces s) (ht : Spaces t) : Spaces (s ++ t) :=
  List.forall_mem_append.2 ⟨hs, ht⟩

theorem Padded.of {a : α} {t : List Char} (h : item a t) : Padded item a t := by
  have hpadded := Padded.intro (List.forall_mem_nil _) h (List.forall_mem_nil _)
  rwa [List.nil_append, List.append_nil] at hpadded

theorem absorbs_padded : Absorbs (Padded item) := by
  rintro a _ spaces ⟨hbefore, htext, hafter⟩ hspaces
  constructor
  · rw [← List.append_assoc]
    exact .intro (hspaces.append hbefore) htext hafter
  · rw [List.append_assoc, List.append_assoc]
    exact .intro hbefore htext (hafter.append hspaces)

theorem absorbs_member {value : Value → List Char → Prop} : Absorbs (Member value) := by
  rintro _ _ spaces ⟨hkey, htext⟩ hspaces
  constructor
  · rw [← List.append_assoc]
    exact .intro (absorbs_padded hkey hspaces).1 htext
  · rw [List.append_assoc, List.cons_append]
    exact .intro hkey (absorbs_padded htext hspaces).2

theorem Separated.spaced_before (h : Absorbs item) {as : List α} {t spaces : List Char}
    (ht : Separated item as t) (hspaces : Spaces spaces) : Separated item as (spaces ++ t) := by
  cases ht with
  | one ha => exact .one (h ha hspaces).1
  | more ha has =>
      rw [← List.append_assoc]
      exact .more (h ha hspaces).1 has

theorem Separated.spaced_after (h : Absorbs item) {as : List α} {t spaces : List Char}
    (ht : Separated item as t) (hspaces : Spaces spaces) : Separated item as (t ++ spaces) := by
  induction ht with
  | one ha => exact .one (h ha hspaces).2
  | more ha _ ih =>
      rw [List.append_assoc, List.cons_append]
      exact .more ha ih

end

/-! ## Texts with other blanks -/

def isWordSign (c : Char) : Bool :=
  !isBlank c && c ∉ ['\x22', ',', ':', '[', ']', '\x7b', '\x7d']

/-- A transformation of compact texts, at each depth of brackets, that changes only the blanks
between their parts. -/
structure Spacing (f : Nat → List Char → List Char) : Prop where
  word : ∀ {t : List Char} (d after), (∀ c ∈ t, isWordSign c = true) →
    f d (t ++ after) = t ++ f d after
  quoted : ∀ s d after, f d (writeString s after) = writeString s [] ++ f d after
  separator : ∀ c ∈ [',', ':'], ∀ d, ∃ spaces, Spaces spaces ∧
    ∀ after, f d (c :: ' ' :: after) = c :: (spaces ++ f d after)
  empty : ∀ (b : Bracket) d after, f d (b.opening :: b.closing :: after) =
    b.opening :: b.closing :: f d after
  opening : ∀ (b : Bracket) d, ∃ spaces, Spaces spaces ∧
    ∀ c after, isBlank c = false → c ≠ b.closing →
      f d (b.opening :: c :: after) = b.opening :: (spaces ++ f (d + 1) (c :: after))
  closing : ∀ (b : Bracket) d, ∃ spaces, Spaces spaces ∧
    ∀ after, f (d + 1) (b.closing :: after) = spaces ++ b.closing :: f d after

theorem spacing_id : Spacing fun _ text => text where
  word _ _ _ := rfl
  quoted s _ after := writeString_append s after
  separator _ _ _ := ⟨[' '], List.forall_mem_singleton.2 rfl, fun _ => rfl⟩
  empty _ _ _ := rfl
  opening _ _ := ⟨[], List.forall_mem_nil _, fun _ _ _ _ => rfl⟩
  closing _ _ := ⟨[], List.forall_mem_nil _, fun _ => rfl⟩

/-! ## First characters -/

theorem isWordSign_digitChar : ∀ n < 10, isWordSign (Nat.digitChar n) = true := by decide

theorem isWordSign_of_inNumeral {c : Char} (h : inNumeral c = true) : isWordSign c = true := by
  simp only [inNumeral, Bool.or_eq_true, beq_iff_eq, or_assoc] at h
  rcases h with hdigit | rfl | rfl | rfl | rfl | rfl
  · obtain ⟨n, hn, rfl⟩ := Numeric.exists_digitChar hdigit
    exact isWordSign_digitChar n hn
  all_goals rfl

def Starts (inner : List Char → List Char) : Prop :=
  ∃ c, isBlank c = false ∧ Bracket.isClosing c = false ∧ ∀ after, ∃ rest, inner after = c :: rest

theorem starts_numeral {t : List Char} (h : Numeral t) : Starts (t ++ ·) := by
  obtain ⟨c, rest, rfl, -⟩ := h.head
  have hsign := isWordSign_of_inNumeral (h.forall_inNumeral c (List.mem_cons_self ..))
  simp only [isWordSign, Bool.and_eq_true, Bool.not_eq_true', decide_eq_true_eq, List.mem_cons,
    List.not_mem_nil, or_false, not_or] at hsign
  refine ⟨c, hsign.1, ?_, fun after => ⟨rest ++ after, rfl⟩⟩
  simp [Bracket.isClosing, hsign.2]

theorem starts_writeString (s : String) {inner : List Char → List Char} :
    Starts fun after => writeString s (inner after) :=
  ⟨'\x22', rfl, rfl, fun _ => ⟨_, rfl⟩⟩

theorem starts_write {j : Json} (h : ∀ x ∈ j.reals, Numeral x.text) : Starts (write j) := by
  cases j with
  | null => exact ⟨'n', rfl, rfl, fun _ => ⟨_, rfl⟩⟩
  | bool b =>
      cases b with
      | true => exact ⟨'t', rfl, rfl, fun _ => ⟨_, rfl⟩⟩
      | false => exact ⟨'f', rfl, rfl, fun _ => ⟨_, rfl⟩⟩
  | int n => exact starts_numeral (numeral_int n)
  | real x => exact starts_numeral (h x (List.mem_singleton_self x))
  | string s => exact starts_writeString s
  | array => exact ⟨'[', rfl, rfl, fun _ => ⟨_, rfl⟩⟩
  | object => exact ⟨'\x7b', rfl, rfl, fun _ => ⟨_, rfl⟩⟩

theorem starts_writeItems {j : Json} {js : List Json} (h : ∀ x ∈ j.reals, Numeral x.text) :
    Starts (writeItems (j :: js)) := by
  obtain ⟨c, hblank, hclosing, hc⟩ := starts_write h
  refine ⟨c, hblank, hclosing, fun after => ?_⟩
  cases js with
  | nil => exact hc after
  | cons k ks => exact hc _

theorem starts_writeFields {e : String × Json} {es : List (String × Json)} :
    Starts (writeFields (e :: es)) := by
  cases es with
  | nil => exact starts_writeString e.1
  | cons => exact starts_writeString e.1

/-! ## Values under a spacing -/

section

variable {f : Nat → List Char → List Char}

/-- A text of a value that comes of the compact one by a spacing. -/
def Spaced (f : Nat → List Char → List Char) (j : Json) : Prop :=
  ∀ d, ∃ text, Denotes j.value text ∧ ∀ after, f d (write j after) = text ++ f d after

variable (hf : Spacing f)

include hf

theorem spaced_items {js : List Json} (hne : js ≠ []) (h : ∀ j ∈ js, Spaced f j) (d : Nat) :
    ∃ text, Separated (Padded Denotes) (js.map value) text ∧
      ∀ after, f d (writeItems js after) = text ++ f d after := by
  induction js with
  | nil => exact absurd rfl hne
  | cons j js ih =>
      obtain ⟨hj, hjs⟩ := List.forall_mem_cons.1 h
      obtain ⟨text, hdenotes, htext⟩ := hj d
      cases js with
      | nil => exact ⟨text, .one (.of hdenotes), htext⟩
      | cons k ks =>
          obtain ⟨texts, hseparated, htexts⟩ := ih (List.cons_ne_nil _ _) hjs
          obtain ⟨spaces, hspaces, hcomma⟩ := hf.separator ',' (by decide) d
          refine ⟨text ++ ',' :: (spaces ++ texts), .more (.of hdenotes) ?_, fun after => ?_⟩
          · exact hseparated.spaced_before absorbs_padded hspaces
          · rw [writeItems, htext, hcomma, htexts]
            · simp
            · exact List.cons_ne_nil _ _

theorem spaced_member {k : String} {j : Json} (h : Spaced f j) (d : Nat) :
    ∃ text, Member Denotes (k, j.value) text ∧
      ∀ after, f d (writeString k (':' :: ' ' :: write j after)) = text ++ f d after := by
  obtain ⟨text, hdenotes, htext⟩ := h d
  obtain ⟨spaces, hspaces, hcolon⟩ := hf.separator ':' (by decide) d
  refine ⟨writeString k [] ++ ':' :: (spaces ++ text), ?_, fun after => ?_⟩
  · exact .intro (.of (quoted_writeString k)) (absorbs_padded (.of hdenotes) hspaces).1
  · rw [hf.quoted, hcolon, htext]
    simp

theorem spaced_fields {fs : List (String × Json)} (hne : fs ≠ [])
    (h : ∀ e ∈ fs, Spaced f e.2) (d : Nat) :
    ∃ text, Separated (Member Denotes) (fs.map fun e => (e.1, e.2.value)) text ∧
      ∀ after, f d (writeFields fs after) = text ++ f d after := by
  induction fs with
  | nil => exact absurd rfl hne
  | cons e fs ih =>
      obtain ⟨k, j⟩ := e
      obtain ⟨hj, hfs⟩ := List.forall_mem_cons.1 h
      obtain ⟨text, hmember, htext⟩ := spaced_member hf (k := k) hj d
      cases fs with
      | nil => exact ⟨text, .one hmember, htext⟩
      | cons g gs =>
          obtain ⟨texts, hseparated, htexts⟩ := ih (List.cons_ne_nil _ _) hfs
          obtain ⟨spaces, hspaces, hcomma⟩ := hf.separator ',' (by decide) d
          refine ⟨text ++ ',' :: (spaces ++ texts), .more hmember ?_, fun after => ?_⟩
          · exact hseparated.spaced_before absorbs_member hspaces
          · rw [writeFields, htext, hcomma, htexts]
            · simp
            · exact List.cons_ne_nil _ _

theorem spaced_between {α : Type} {item : α → List Char → Prop} (habsorbs : Absorbs item)
    {as : List α} {inner : List Char → List Char} (b : Bracket) (d : Nat) (hstarts : Starts inner)
    (hinner : ∃ text, Separated item as text ∧
      ∀ after, f (d + 1) (inner after) = text ++ f (d + 1) after) :
    ∃ text, Listed item as text ∧ ∀ after,
      f d (b.opening :: inner (b.closing :: after)) =
        b.opening :: (text ++ [b.closing]) ++ f d after := by
  obtain ⟨c, hblank, hclosing, hc⟩ := hstarts
  obtain ⟨text, hseparated, htext⟩ := hinner
  obtain ⟨before, hbefore, hopening⟩ := hf.opening b d
  obtain ⟨behind, hbehind, hclose⟩ := hf.closing b d
  have hne : c ≠ b.closing := by
    rintro rfl
    cases b <;> exact absurd hclosing (by decide)
  refine ⟨before ++ (text ++ behind), .some ?_, fun after => ?_⟩
  · exact (hseparated.spaced_after habsorbs hbehind).spaced_before habsorbs hbefore
  · obtain ⟨rest, hrest⟩ := hc (b.closing :: after)
    rw [hrest, hopening c _ hblank hne, ← hrest, htext, hclose]
    simp

theorem spaced_word {v : Value} {t : List Char} (hv : Denotes v t)
    (ht : ∀ c ∈ t, isWordSign c = true) (d : Nat) :
    ∃ text, Denotes v text ∧ ∀ after, f d (t ++ after) = text ++ f d after :=
  ⟨t, hv, fun _ => hf.word d _ ht⟩

theorem spaced_numeral {t : List Char} (h : Numeral t) (d : Nat) :
    ∃ text, Denotes (.number t) text ∧ ∀ after, f d (t ++ after) = text ++ f d after :=
  spaced_word hf (.number h) (fun c hc => isWordSign_of_inNumeral (h.forall_inNumeral c hc)) d

theorem spaced_array {js : List Json} (hreals : ∀ j ∈ js, ∀ x ∈ j.reals, Numeral x.text)
    (h : ∀ j ∈ js, Spaced f j) : Spaced f (array js) := by
  intro d
  rw [value, valueAll_eq_map]
  cases js with
  | nil =>
      have hnone : Listed (Padded Denotes) [] [] := .none (List.forall_mem_nil _)
      exact ⟨['[', ']'], .array hnone, fun after => hf.empty .square d after⟩
  | cons j js =>
      obtain ⟨text, hlisted, htext⟩ := spaced_between hf absorbs_padded .square d
        (starts_writeItems (hreals j (List.mem_cons_self ..)))
        (spaced_items hf (List.cons_ne_nil j js) h (d + 1))
      exact ⟨'[' :: (text ++ [']']), .array hlisted, htext⟩

theorem spaced_object {fs : List (String × Json)} (h : ∀ e ∈ fs, Spaced f e.2) :
    Spaced f (object fs) := by
  intro d
  rw [value, valueFields_eq_map]
  cases fs with
  | nil =>
      have hnone : Listed (Member Denotes) [] [] := .none (List.forall_mem_nil _)
      exact ⟨['\x7b', '\x7d'], .object hnone, fun after => hf.empty .curly d after⟩
  | cons e es =>
      obtain ⟨text, hlisted, htext⟩ := spaced_between hf absorbs_member .curly d
        starts_writeFields (spaced_fields hf (List.cons_ne_nil e es) h (d + 1))
      exact ⟨'\x7b' :: (text ++ ['\x7d']), .object hlisted, htext⟩

end

/-- Under a spacing, the text of a value whose numbers are written as numerals is still a text of
the value. -/
theorem spaced {f : Nat → List Char → List Char} (hf : Spacing f) (j : Json)
    (h : ∀ x ∈ j.reals, Numeral x.text) : Spaced f j :=
  match j with
  | null => spaced_word hf .null (List.all_eq_true.1 rfl)
  | bool true => spaced_word hf .trueWord (List.all_eq_true.1 rfl)
  | bool false => spaced_word hf .falseWord (List.all_eq_true.1 rfl)
  | int n => spaced_numeral hf (numeral_int n)
  | real x => spaced_numeral hf (h x (List.mem_singleton_self x))
  | string s => fun d => ⟨writeString s [], .string (quoted_writeString s), hf.quoted s d⟩
  | array js => by
      have hreals : ∀ k ∈ js, ∀ x ∈ k.reals, Numeral x.text := fun k hk x hx =>
        h x (by rw [reals, realsAll_eq_flatMap]; exact List.mem_flatMap.2 ⟨k, hk, hx⟩)
      exact spaced_array hf hreals fun k hk => spaced hf k (hreals k hk)
  | object fs => by
      have hreals : ∀ e ∈ fs, ∀ x ∈ e.2.reals, Numeral x.text := fun e he x hx =>
        h x (by rw [reals, realsFields_eq_flatMap]; exact List.mem_flatMap.2 ⟨e, he, hx⟩)
      exact spaced_object hf fun e he => spaced hf e.2 (hreals e he)
termination_by sizeOf j
decreasing_by
  · have hlt := List.sizeOf_lt_of_mem hk
    rw [array.sizeOf_spec]
    omega
  · have hlt := List.sizeOf_lt_of_mem he
    have hsnd : sizeOf e = 1 + sizeOf e.1 + sizeOf e.2 := rfl
    rw [object.sizeOf_spec]
    omega

/-- What a spacing makes of a compact text denotes the same value. -/
theorem document_spacing {j : Json} (hf : Spacing f) (hend : f 0 [] = [])
    (h : ∀ x ∈ j.reals, Numeral x.text) : Document j.value (f 0 j.compact) := by
  obtain ⟨text, hdenotes, htext⟩ := spaced hf j h 0
  rw [compact, htext, hend, List.append_nil]
  exact .of hdenotes

theorem document_compact {j : Json} (h : ∀ x ∈ j.reals, Numeral x.text) :
    Document j.value j.compact := document_spacing spacing_id rfl h

end MiniJava.Json
