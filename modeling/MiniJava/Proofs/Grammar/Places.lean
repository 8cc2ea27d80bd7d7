import MiniJava.Proofs.Grammar.Derivation
import MiniJava.Proofs.Tree.Places
/-!
# Places of parsed trees

Every node of a parsed program stands at a token of its own, and the places of the program
follow the order of the source.
-/

namespace MiniJava.Grammar

open Lexical
open scoped List

def Trace.places (s : Trace) : List Location := s.tokens.map (·.location)

namespace Trace

@[simp] theorem places_append (s u : Trace) : places (s ++ u) = places s ++ places u := by
  simp [places]

@[simp] theorem places_read (t : Token) (s : Trace) :
    places (.read t :: s) = t.location :: places s := rfl

end Trace

private theorem places_node {n : Node} {t : Token} {s : Trace}
    (hkind : (n.kind == .binary) = false) (hplace : n.location = t.location)
    (h : n.children.flatMap Node.places <+ s.places) :
    [n].flatMap Node.places <+ (Trace.places (.read t :: s)) := by
  rw [List.flatMap_singleton, Node.places_eq (beq_eq_false_iff_ne.1 hkind), Trace.places_read,
    hplace]
  exact h.cons_cons _

private theorem places_binary {op : BinaryOperator} {left right : Node} {t : Token} {s u : Trace}
    (hleft : [left].flatMap Node.places <+ s.places)
    (hright : [right].flatMap Node.places <+ u.places) :
    [Node.binary op left right t.location].flatMap Node.places <+
      Trace.places (s ++ .read t :: u) := by
  rw [List.flatMap_singleton] at *
  rw [Node.places_binary, Trace.places_append, Trace.places_read]
  exact hleft.append (hright.cons_cons _)

/-- The places of derived nodes are, in order, places of tokens read. -/
theorem Derives.places {c : Category} {ns : List Node} {s : Trace} (h : Derives c ns s) :
    ns.flatMap Node.places <+ s.places := by
  induction h with
  | skip => exact List.nil_sublist _
  | append _ _ ihn ihm =>
      rw [List.flatMap_append, Trace.places_append]
      exact ihn.append ihm
  | primary _ ih => exact ih
  | expressionStatement _ ih => exact ih
  | declarationStatement _ ih => exact ih
  | @literal value t _ =>
      refine places_node ?_ rfl (List.nil_sublist _)
      cases value <;> rfl
  | reference _ ih => exact places_node rfl rfl ih
  | call _ ih => exact places_node rfl rfl ih
  | declared => exact places_node rfl rfl (List.nil_sublist _)
  | declaredArray => exact places_node rfl rfl (List.nil_sublist _)
  | declaration => exact places_node rfl rfl (List.nil_sublist _)
  | unary _ ih => exact places_node rfl rfl ih
  | binary _ _ _ ihl ihr => exact places_binary ihl ihr
  | access _ _ ihl ihr => exact places_binary ihl ihr
  | array _ ih => exact places_node rfl rfl ih
  | object _ ih => exact places_node rfl rfl (places_node rfl rfl ih)
  | printStatement _ ih => exact places_node rfl rfl ih
  | returnStatement _ ih => exact places_node rfl rfl ih
  | block _ ih => exact places_node rfl rfl ih
  | mainClass _ ih => exact places_node rfl rfl ih
  | ifStatement _ _ ihc ihb =>
      refine places_node rfl rfl ?_
      rw [Trace.places_append]
      simpa [Node.children] using ihc.append ihb
  | whileStatement _ _ ihc ihb =>
      refine places_node rfl rfl ?_
      rw [Trace.places_append]
      simpa [Node.children] using ihc.append ihb
  | forStatement _ _ ihc ihb =>
      refine places_node rfl rfl ?_
      rw [Trace.places_append, Node.children, List.flatMap_append]
      exact ihc.append ihb
  | @body _ statements _ _ _ _ _ _ _ _ _ ihs ihr =>
      refine places_node rfl rfl ?_
      rw [Trace.places_append, Node.children, List.takeWhile_append_dropWhile,
        List.flatMap_append]
      exact ihs.append ihr
  | method _ _ _ ihp ihb =>
      refine places_node rfl rfl ?_
      rw [Trace.places_append, Node.children, List.flatMap_append]
      exact ihp.append ihb
  | mainMethod _ _ ihp ihb =>
      refine places_node rfl rfl ?_
      rw [Trace.places_append, Node.children, List.flatMap_append]
      exact ihp.append ihb
  | classDeclaration _ _ _ ihd ihm =>
      refine places_node rfl rfl ?_
      rw [Trace.places_append, Node.children, List.flatMap_append]
      exact ihd.append ihm

theorem sourceTokens_ordered (source text : String) :
    ((sourceTokens source text).map (·.location)).Pairwise Location.Before :=
  ((segmented_segments text.toList).ordered source .origin).1

/-- The places of a program are, in order, places of tokens of its source. -/
theorem program_places (source text : String) :
    (parseText source text).1.classes.flatMap Node.places <+
      (sourceTokens source text).map (·.location) := by
  obtain ⟨first, others, u, v, hclasses, hfirst, hothers, htokens, -⟩ :=
    source_derives source text
  rw [hclasses, List.flatMap_append, ← htokens, Trace.tokens_append, List.map_append]
  exact hfirst.places.append hothers.places

/-- Each node of a program has the place of a token that was read, and no two nodes have the
same.  Subtrees side by side have their places one after another, and a node begins before all
below it, unless it is an operator, which stands between its sides. -/
theorem nodes_in_source_order (source text : String) :
    let p := (parseText source text).1
    let tokens := sourceTokens source text
    (∀ n ∈ p.nodes, ∃ t ∈ (program.run (sourceEnd source text) tokens).trace.tokens,
      n.location = t.location) ∧
    (p.nodes.map (·.location)).Nodup ∧
    p.size - 1 ≤ tokens.length ∧
    p.classes.Pairwise Node.Precedes ∧
    ∀ n ∈ p.nodes, n.children.Pairwise Node.Precedes ∧ n.Leads := by
  intro p tokens
  have hsublist : p.classes.flatMap Node.places <+ tokens.map (·.location) :=
    program_places source text
  have hperm : (p.classes.flatMap Node.places).Perm (p.nodes.map (·.location)) := by
    rw [p.nodes_eq, List.map_flatMap]
    exact .flatMap_left _ fun n _ => n.places_perm
  have hordered : (p.classes.flatMap Node.places).Pairwise Location.Before :=
    (sourceTokens_ordered source text).sublist hsublist
  obtain ⟨hwithin, hacross⟩ := List.pairwise_flatMap.1 hordered
  have hread : (program.run (sourceEnd source text) tokens).trace.tokens = tokens := by
    obtain ⟨found, trace, hrun⟩ := program_ok (sourceEnd source text) tokens
    have htokens := program.conserves (sourceEnd source text) tokens
    rw [hrun] at htokens ⊢
    rwa [List.append_nil] at htokens
  refine ⟨fun n hn => ?_, ?_, ?_, hacross.imp Node.precedes_iff.2, ?_⟩
  · have hplace : n.location ∈ tokens.map (·.location) :=
      hsublist.subset (hperm.mem_iff.2 (List.mem_map_of_mem hn))
    obtain ⟨t, ht, heq⟩ := List.mem_map.1 hplace
    rw [hread]
    exact ⟨t, ht, heq.symm⟩
  · exact hperm.nodup_iff.1 (hordered.imp fun h => h.ne)
  · have hlength := hsublist.length_le
    rw [hperm.length_eq, List.length_map, List.length_map] at hlength
    rw [p.size_eq_length]
    exact hlength
  · rw [p.nodes_eq, List.forall_mem_flatMap]
    exact fun n hn => Node.ordered_nodes (hwithin n hn)

end MiniJava.Grammar
