import MiniJava.Proofs.Json.Objects
import MiniJava.Proofs.Tree.Layout
/-!
# The objects that show a tree

The text of a tree has an object for each node, in the order in which the nodes are met from the
root down, whatever stands in its names and literals.
-/

namespace MiniJava

open Json

theorem NodeKind.tag_injective : Function.Injective NodeKind.tag := by
  intro k l h
  cases k <;> cases l <;> first | rfl | exact absurd h (by decide)

/-- The objects in a text are of these kinds, one after another. -/
def Pictures (text : List Char) (kinds : List NodeKind) : Prop :=
  types text = kinds.map fun k => some (writeString k.tag [])

/-- A text denotes a value and no other, and the objects in this value are of these kinds. -/
def Encodes (text : List Char) (kinds : List NodeKind) : Prop :=
  ∃ v, (∀ w, Document w text ↔ w = v) ∧ v.types = kinds.map fun k => some (.string k.tag)

theorem Pictures.length_eq {text : List Char} {kinds : List NodeKind} (h : Pictures text kinds) :
    (objects text).length = kinds.length := by
  have hlength := congrArg List.length h
  rwa [types, List.length_map, List.length_map] at hlength

theorem pictures_of_compact {j : Json} {kinds : List NodeKind}
    (h : Compact .other (kinds.map NodeKind.tag) j.compact) :
    Pictures (String.ofList j.compact).toList kinds := by
  have htypes := h.types_eq []
  rw [List.append_nil, List.map_map] at htypes
  rw [String.toList_ofList, Pictures, htypes]
  exact List.append_nil _

theorem encodes_of_numerals {j : Json} {kinds : List NodeKind}
    (hreals : ∀ x ∈ j.reals, Numeral x.text)
    (htypes : j.value.types = kinds.map fun k => some (.string k.tag)) :
    Encodes (String.ofList j.compact).toList kinds :=
  ⟨j.value, fun w => (shown_compact hreals w).1, htypes⟩

namespace Node

def Finite (n : Node) : Prop := ∀ x ∈ n.realLiterals, x.isFinite = true

theorem Finite.numerals {n : Node} (h : n.Finite) : ∀ x ∈ n.toJson.reals, Numeral x.text := by
  rw [reals_eq_realLiterals]
  exact fun x hx => Numeric.Binary64.numeral_of_isFinite (h x hx)

/-! ## Objects of values -/

theorem objects_option (found : Option Node) :
    (toJsonOption found).value.objects = found.toList.flatMap (·.toJson.value.objects) := by
  cases found <;> simp [value, Value.objects]

/-- The slots of a node hold the objects of the nodes below it. -/
theorem objects_fields (n : Node) :
    n.fields.flatMap (·.2.value.objects) = n.children.flatMap (·.toJson.value.objects) := by
  cases n with
  | classDeclaration name base =>
      cases base <;> simp [fields, children, value, Value.objects, List.flatMap_map]
  | literal v => cases v <;> rfl
  | _ => simp [fields, children, value, Value.objects, objects_option, List.flatMap_map]

theorem types_value (n : Node) :
    n.toJson.value.types = n.nodes.map fun m => some (.string m.kind.tag) := by
  induction n using induction_children with
  | step n ih =>
      have hobjects : n.toJson.value.objects =
          (("type", .string n.typeName) :: n.fields.map fun f => (f.1, f.2.value)) ::
            n.children.flatMap (·.toJson.value.objects) := by
        rw [← objects_fields, value_toJson, Value.objects, Value.objectsFields_eq_flatMap,
          List.flatMap_cons, List.flatMap_map]
        rfl
      have hlookup : List.lookup "type" (("type", Value.string n.typeName) ::
          n.fields.map fun f => (f.1, f.2.value)) = some (.string n.kind.tag) := by
        rw [List.lookup_cons_self, typeName_eq]
      rw [Value.types, hobjects, List.map_cons, hlookup, nodes_eq, List.map_cons, List.map_flatMap,
        List.map_flatMap]
      exact congrArg _ (List.flatMap_congr ih)

end Node

theorem Program.types_value (p : Program) : p.toJson.value.types =
    some (.string p.kind.tag) :: p.nodes.map fun m => some (.string m.kind.tag) := by
  have hobjects : p.toJson.value.objects =
      [("type", .string "Program"), ("classes", .array (p.classes.map (value ∘ Node.toJson)))] ::
        p.classes.flatMap (·.toJson.value.objects) := by
    rw [value_toJson]
    simp [Value.objects, List.flatMap_map]
  rw [Value.types, hobjects, List.map_cons, List.lookup_cons_self, nodes_eq, List.map_flatMap,
    List.map_flatMap]
  exact congrArg _ (List.flatMap_congr fun n _ => n.types_value)

/-- The objects in the text of a tree are of the kinds of its nodes, from the root down, and there
are as many of them as there are nodes.  So are those in the value of the text, which has one if
all reals are finite. -/
theorem objects_display : Function.Injective NodeKind.tag ∧
    (∀ n : Node, Pictures n.display.toList (n.nodes.map (·.kind)) ∧
      n.size = (objects n.display.toList).length ∧
      (n.Finite → Encodes n.display.toList (n.nodes.map (·.kind)))) ∧
    ∀ p : Program, Pictures p.display.toList (p.kind :: p.nodes.map (·.kind)) ∧
      p.size = (objects p.display.toList).length ∧
      ((∀ n ∈ p.classes, n.Finite) →
        Encodes p.display.toList (p.kind :: p.nodes.map (·.kind))) := by
  refine ⟨NodeKind.tag_injective, ?_, ?_⟩
  · intro n
    have hpictures : Pictures n.display.toList (n.nodes.map (·.kind)) := by
      refine pictures_of_compact ?_
      rw [List.map_map]
      exact n.shows
    refine ⟨hpictures, ?_, fun hfinite => encodes_of_numerals hfinite.numerals ?_⟩
    · rw [hpictures.length_eq, List.length_map, n.size_eq_length]
    · rw [n.types_value, List.map_map]
      rfl
  · intro p
    have hpictures : Pictures p.display.toList (p.kind :: p.nodes.map (·.kind)) := by
      refine pictures_of_compact ?_
      rw [List.map_cons, List.map_map]
      exact p.shows
    refine ⟨hpictures, ?_, fun hfinite => encodes_of_numerals ?_ ?_⟩
    · rw [hpictures.length_eq, List.length_cons, List.length_map, p.size_eq_length]
    · rw [p.reals_toJson, List.forall_mem_flatMap]
      exact fun n hn => (hfinite n hn).numerals
    · rw [p.types_value, List.map_cons, List.map_map]
      rfl

/-- A sum with a string that looks like an object. -/
def sumWithString : Node :=
  .binary .add (.literal (.real (.zero true)) ⟨.origin, "sum"⟩)
    (.literal (.string "\x7b\"type\": \"Block\"\x7d") ⟨.origin, "sum"⟩) ⟨.origin, "sum"⟩

theorem encodes_sumWithString : sumWithString.Finite ∧
    Encodes sumWithString.display.toList [.binary, .realLiteral, .stringLiteral] := by
  have hnodes : sumWithString.nodes.map (·.kind) = [.binary, .realLiteral, .stringLiteral] := by
    simp [sumWithString, Node.nodes_eq, Node.children, Node.kind, Literal.kind]
  have hfinite : sumWithString.Finite := by
    intro x hx
    simp only [sumWithString, Node.realLiterals_eq, Node.ownReals, Node.children, List.flatMap_cons,
      List.flatMap_nil, List.nil_append, List.append_nil, List.mem_singleton] at hx
    rw [hx]
    rfl
  exact ⟨hfinite, hnodes ▸ (objects_display.2.1 sumWithString).2.2 hfinite⟩

end MiniJava
