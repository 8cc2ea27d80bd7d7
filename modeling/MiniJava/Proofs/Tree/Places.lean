import MiniJava.Proofs.Tree.Nodes
import MiniJava.Proofs.Lexical.Order
import Mathlib.Data.List.Perm.Basic
/-!
# The places of a tree

A tree that was written down has its places in the order of the text: an operator stands
between its two sides, and any other node begins before what is below it.
-/

namespace MiniJava

namespace Node

/-- Every place of one tree is before every place of another. -/
def Precedes (a b : Node) : Prop :=
  ∀ x ∈ a.nodes, ∀ y ∈ b.nodes, x.location.Before y.location

/-- The place of a node is before all places below it; that of an operator with two sides is
between those of its sides. -/
def Leads : Node → Prop
  | binary _ left right l =>
    (∀ x ∈ left.nodes, x.location.Before l) ∧ ∀ y ∈ right.nodes, l.Before y.location
  | n => ∀ c ∈ n.children, ∀ x ∈ c.nodes, n.location.Before x.location

def places (n : Node) : List Location :=
  match n with
  | binary _ left right l => left.places ++ l :: right.places
  | n => n.location :: n.children.attach.flatMap fun c => c.val.places
termination_by sizeOf n
decreasing_by
  · simp only [binary.sizeOf_spec]; omega
  · simp only [binary.sizeOf_spec]; omega
  · exact sizeOf_lt_of_mem_children c.property

theorem places_binary (op : BinaryOperator) (left right : Node) (l : Location) :
    (binary op left right l).places = left.places ++ l :: right.places := by
  rw [places]

theorem places_eq {n : Node} (h : n.kind ≠ .binary) :
    n.places = n.location :: n.children.flatMap places := by
  have hattach : (n.children.attach.flatMap fun c => c.val.places) = n.children.flatMap places := by
    rw [List.flatMap_subtype fun _ _ => rfl, List.unattach_attach]
  cases n with
  | binary => exact absurd rfl h
  | _ => rw [places, hattach]; simp

/-- The places in order are those of the nodes from the root down. -/
theorem places_perm (n : Node) : n.places.Perm (n.nodes.map (·.location)) := by
  induction n using induction_children with
  | step n ih =>
      rw [nodes_eq, List.map_cons, List.map_flatMap]
      by_cases h : n.kind = .binary
      · cases n with
        | binary op left right l =>
            have hleft := ih left (List.mem_cons_self ..)
            have hright := ih right (List.mem_cons_of_mem _ (List.mem_cons_self ..))
            rw [places_binary]
            refine List.perm_middle.trans (.cons l ?_)
            simpa [children] using hleft.append hright
        | literal value => cases value <;> cases h
        | _ => cases h
      · rw [places_eq h]
        exact .cons _ (.flatMap_left _ ih)

theorem forall_mem_places {P : Location → Prop} {n : Node} :
    (∀ l ∈ n.places, P l) ↔ ∀ m ∈ n.nodes, P m.location := by
  simp only [n.places_perm.mem_iff, List.forall_mem_map]

theorem location_mem_places (n : Node) : n.location ∈ n.places :=
  forall_mem_places.1 (fun _ hl => hl) n n.mem_nodes_self

theorem precedes_iff {a b : Node} :
    a.Precedes b ↔ ∀ x ∈ a.places, ∀ y ∈ b.places, x.Before y := by
  simp only [Precedes, forall_mem_places]

/-- A node whose places are in order leads its children, and they precede one another. -/
theorem ordered_of_places {n : Node} (h : n.places.Pairwise Location.Before) :
    n.children.Pairwise Precedes ∧ n.Leads ∧
      ∀ c ∈ n.children, c.places.Pairwise Location.Before := by
  by_cases hkind : n.kind = .binary
  · cases n with
    | binary op left right l =>
        rw [places_binary, List.pairwise_append, List.pairwise_cons] at h
        obtain ⟨hleft, ⟨hafter, hright⟩, hsides⟩ := h
        obtain ⟨hbefore, hacross⟩ := forall_and.1 fun x =>
          forall_and.1 fun hx => List.forall_mem_cons.1 (hsides x hx)
        refine ⟨?_, ⟨forall_mem_places.1 hbefore, forall_mem_places.1 hafter⟩, ?_⟩
        · exact List.pairwise_pair.2 (precedes_iff.2 hacross)
        · simpa [children] using ⟨hleft, hright⟩
    | literal value => cases value <;> cases hkind
    | _ => cases hkind
  · rw [places_eq hkind, List.pairwise_cons, List.pairwise_flatMap, List.forall_mem_flatMap] at h
    obtain ⟨hbefore, hchildren, hordered⟩ := h
    refine ⟨hordered.imp precedes_iff.2, ?_, hchildren⟩
    have hleads : ∀ c ∈ n.children, ∀ x ∈ c.nodes, n.location.Before x.location :=
      fun c hc => forall_mem_places.1 (hbefore c hc)
    cases n with
    | binary => exact absurd rfl hkind
    | _ => exact hleads

/-- If the places of a tree are in order, then those of each of its nodes lead its children,
and these precede one another. -/
theorem ordered_nodes {n : Node} (h : n.places.Pairwise Location.Before) :
    ∀ m ∈ n.nodes, m.children.Pairwise Precedes ∧ m.Leads := by
  induction n using induction_children with
  | step n ih =>
      obtain ⟨hchildren, hleads, hbelow⟩ := ordered_of_places h
      exact forall_mem_nodes.2 ⟨⟨hchildren, hleads⟩, fun c hc => ih c hc (hbelow c hc)⟩

end Node

end MiniJava
