import MiniJava.Proofs.Json.Compact
/-!
# The objects of a text

Where objects begin in a text, and the objects of the value that a text denotes, both in the order
of the text.  A brace in a string begins no object.
-/

namespace MiniJava.Json

open MiniJava.Text

/-! ## Objects in texts -/

/-- What begins at each opening brace of a text, part by part. -/
def objects (text : List Char) : List (List (List Char)) :=
  (parts text).tails.filter fun ps => ps.head? == some ['\x7b']

def type? : List (List Char) → Option (List Char)
  | _ :: key :: [':'] :: [' '] :: type :: _ =>
    if key = writeString "type" [] then some type else none
  | _ => none

def types (text : List Char) : List (Option (List Char)) := (objects text).map type?

section

variable {c : Char} {t : List Char} {tags : List String} {piece : Piece}

theorem types_of_head {text after : List Char} {p : List Char} (h : parts text = p :: parts after)
    (hp : p ≠ ['\x7b']) : types text = types after := by
  rw [types, objects, h, List.tails, List.filter_cons_of_neg (by simpa using hp)]
  rfl

theorem types_plain (h : ∀ c ∈ t, c ≠ '\x22' ∧ c ≠ '\x7b') (after : List Char) :
    types (t ++ after) = types after := by
  induction t with
  | nil => rfl
  | cons c t ih =>
      obtain ⟨⟨hquote, hbrace⟩, ht⟩ := List.forall_mem_cons.1 h
      rw [← ih ht]
      exact types_of_head (parts_character hquote _) fun heq => hbrace (List.cons.inj heq).1

theorem types_writeString (s : String) (after : List Char) :
    types (writeString s after) = types after := by
  refine types_of_head (parts_writeString s after) ?_
  rw [writeString_eq]
  exact fun heq => absurd (List.cons.inj heq).1 (by decide)

theorem types_lead (key : Option String) (after : List Char) :
    types (lead key ++ after) = types after := by
  cases key with
  | none => rfl
  | some k =>
      rw [lead_some, types_writeString]
      exact types_plain (t := [':', ' ']) (by simp) after

theorem types_object (tag : String) (after : List Char) :
    types ('\x7b' :: (lead (some "type") ++ writeString tag after)) =
      some (writeString tag []) :: types after := by
  have hparts : parts (lead (some "type") ++ writeString tag after) =
      writeString "type" [] :: [':'] :: [' '] :: writeString tag [] :: parts after := by
    rw [lead_some, parts_writeString, parts_character (by decide), parts_character (by decide),
      parts_writeString]
  have hlater := (types_lead (some "type") (writeString tag after)).trans
    (types_writeString tag after)
  rw [← hlater, types, objects, parts_character (by decide), List.tails,
    List.filter_cons_of_pos rfl, List.map_cons, types, objects, hparts]
  rfl

/-- The objects in a text of the grammar have the types that it is given with. -/
theorem Compact.types_eq (h : Compact piece tags t) (after : List Char) :
    types (t ++ after) = tags.map (fun tag => some (writeString tag [])) ++ types after := by
  induction h generalizing after with
  | word _ h =>
      have hinert := fun c hc => inert_of_isWordSign (h c hc)
      exact types_plain (fun c hc => ⟨(hinert c hc).quote, (hinert c hc).ne_opening .curly⟩) after
  | string s =>
      rw [← writeString_append]
      exact types_writeString s after
  | empty => exact types_plain (by simp) after
  | list _ ih =>
      have hopening := types_plain (t := ['[']) (by simp)
      have hclosing := types_plain (t := [']']) (by simp)
      rw [List.cons_append, List.append_assoc]
      exact (hopening _).trans ((ih _).trans (congrArg _ (hclosing after)))
  | @object tag tags rest _ ih =>
      have hclosing := types_plain (t := ['\x7d']) (by simp) after
      -- the members begin with the type, in which no object begins
      have hinner := ih ('\x7d' :: after)
      have hsplit : ∀ after, lead (some "type") ++ writeString tag rest ++ after =
          lead (some "type") ++ writeString tag (rest ++ after) := fun after => by
        rw [writeString_append, List.append_assoc, List.append_assoc, ← writeString_append]
      rw [hsplit, types_lead, types_writeString] at hinner
      rw [List.cons_append, List.append_assoc, hsplit, types_object]
      exact congrArg _ (hinner.trans (congrArg _ hclosing))
  | one _ _ ih => rw [List.append_assoc, types_lead, ih]
  | @more key _ tags tags' t ts _ _ _ ih ihlater =>
      have hcomma := types_plain (t := [',', ' ']) (by simp) (ts ++ after)
      have hsplit : lead key ++ (t ++ ',' :: ' ' :: ts) ++ after =
          lead key ++ (t ++ ([',', ' '] ++ (ts ++ after))) := by simp
      rw [hsplit, types_lead, ih, hcomma, ihlater, List.map_append, List.append_assoc]

end

/-! ## Objects of values -/

mutual

/-- The objects of a value, each before those in its members. -/
def Value.objects : Value → List (List (String × Value))
  | .array vs => objectsAll vs
  | .object fields => fields :: objectsFields fields
  | _ => []

def Value.objectsAll : List Value → List (List (String × Value))
  | [] => []
  | v :: vs => v.objects ++ objectsAll vs

def Value.objectsFields : List (String × Value) → List (List (String × Value))
  | [] => []
  | (_, v) :: fs => v.objects ++ objectsFields fs

end

namespace Value

@[simp] theorem objectsAll_eq_flatMap (vs : List Value) : objectsAll vs = vs.flatMap objects := by
  induction vs with
  | nil => rfl
  | cons v vs ih => rw [objectsAll, ih, List.flatMap_cons]

@[simp] theorem objectsFields_eq_flatMap (fs : List (String × Value)) :
    objectsFields fs = fs.flatMap (·.2.objects) := by
  induction fs with
  | nil => rfl
  | cons f fs ih => rw [objectsFields, ih, List.flatMap_cons]

def types (v : Value) : List (Option Value) := v.objects.map (·.lookup "type")

end Value

end MiniJava.Json
