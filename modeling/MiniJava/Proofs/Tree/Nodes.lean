import MiniJava.Tree.Basic
import Mathlib.Data.List.Basic
/-!
# The nodes of a tree

All nodes of a tree in one list, and induction from the nodes below a node.
-/

namespace MiniJava

namespace Node

/-- A property that passes from the children of a node to the node holds of every node. -/
@[elab_as_elim] theorem induction_children {motive : Node → Prop}
    (step : ∀ n, (∀ c ∈ n.children, motive c) → motive n) (n : Node) : motive n :=
  step n fun c _ => induction_children step c
termination_by sizeOf n
decreasing_by exact sizeOf_lt_of_mem_children ‹_›

theorem preorder_eq (depth : Nat) (n : Node) :
    n.preorder depth = (depth, n) :: n.children.flatMap (·.preorder (depth + 1)) := by
  rw [preorder, List.flatMap_subtype fun _ _ => rfl, List.unattach_attach]

theorem size_eq (n : Node) : n.size = n.children.foldr (fun c total => c.size + total) 1 := by
  rw [size]
  exact List.foldr_attach (f := fun (c : Node) total => c.size + total)

def nodes (n : Node) : List Node := (n.preorder 0).map (·.2)

/-- Distances from the root aside, the order of the nodes is the same at every depth. -/
theorem map_preorder (depth : Nat) (n : Node) : (n.preorder depth).map (·.2) = n.nodes := by
  induction n using induction_children generalizing depth with
  | step n ih =>
      rw [nodes, preorder_eq, preorder_eq, List.map_cons, List.map_cons, List.map_flatMap,
        List.map_flatMap]
      exact congrArg _ (List.flatMap_congr fun c hc => (ih c hc _).trans (ih c hc _).symm)

theorem nodes_eq (n : Node) : n.nodes = n :: n.children.flatMap nodes := by
  rw [nodes, preorder_eq, List.map_cons, List.map_flatMap]
  exact congrArg _ (List.flatMap_congr fun c _ => map_preorder 1 c)

theorem mem_nodes_self (n : Node) : n ∈ n.nodes := by
  rw [nodes_eq]
  exact List.mem_cons_self ..

/-- What holds of all nodes of a tree holds of its root and of all nodes below. -/
theorem forall_mem_nodes {P : Node → Prop} {n : Node} :
    (∀ m ∈ n.nodes, P m) ↔ P n ∧ ∀ c ∈ n.children, ∀ m ∈ c.nodes, P m := by
  rw [nodes_eq, List.forall_mem_cons, List.forall_mem_flatMap]

theorem mem_nodes_of_mem_children {c m n : Node} (hc : c ∈ n.children) (hm : m ∈ c.nodes) :
    m ∈ n.nodes :=
  (forall_mem_nodes.1 fun _ h => h).2 c hc m hm

theorem foldr_size (ns : List Node) (h : ∀ n ∈ ns, n.size = n.nodes.length) :
    ns.foldr (fun n total => n.size + total) 1 = (ns.flatMap nodes).length + 1 := by
  induction ns with
  | nil => rfl
  | cons n ns ih =>
      obtain ⟨hn, hns⟩ := List.forall_mem_cons.1 h
      rw [List.foldr_cons, ih hns, hn, List.flatMap_cons, List.length_append, Nat.add_assoc]

theorem size_eq_length (n : Node) : n.size = n.nodes.length := by
  induction n using induction_children with
  | step n ih => rw [size_eq, nodes_eq, List.length_cons, foldr_size _ ih]

end Node

namespace Program

def nodes (p : Program) : List Node := p.preorder.map (·.2)

theorem nodes_eq (p : Program) : p.nodes = p.classes.flatMap Node.nodes := by
  rw [nodes, preorder, List.map_flatMap]
  exact List.flatMap_congr fun c _ => c.map_preorder 0

theorem size_eq_length (p : Program) : p.size = p.nodes.length + 1 := by
  rw [nodes_eq, size, Node.foldr_size _ fun n _ => n.size_eq_length]

end Program

end MiniJava
