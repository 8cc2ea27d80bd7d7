import MiniJava.Proofs.Json.Lines
import MiniJava.Proofs.Tree.Display
/-!
# The layout of trees

The texts of trees belong to the grammar of texts in which every object begins with its type and
every list stands behind a key, so that they are laid out line by line.  Nothing is asked of the
names and literals in the trees.
-/

namespace MiniJava

open Json

def NodeKind.tag : NodeKind → String
  | program => "Program"
  | block => "Block"
  | classDeclaration => "ClassDeclaration"
  | mainClass => "MainClass"
  | methodDeclaration => "MethodDeclaration"
  | methodBody => "MethodBody"
  | methodCall => "MethodCall"
  | variableDeclaration => "VarDeclaration"
  | reference => "Variable"
  | ifStatement => "IfStatement"
  | whileStatement => "WhileStatement"
  | forStatement => "ForStatement"
  | returnStatement => "ReturnStatement"
  | printStatement => "PrintStatement"
  | allocation => "NewStatement"
  | binary => "BinaryOpExpression"
  | unary => "UnaryOpExpression"
  | realLiteral => "RealLiteral"
  | integerLiteral => "IntegerLiteral"
  | charLiteral => "CharLiteral"
  | stringLiteral => "StringLiteral"
  | booleanLiteral => "BooleanLiteral"

namespace Node

theorem typeName_eq (n : Node) : n.typeName = n.kind.tag := by
  cases n with
  | literal value => cases value <;> rfl
  | _ => rfl

def tags (n : Node) : List String := n.nodes.map (·.kind.tag)

theorem tags_eq (n : Node) : n.tags = n.kind.tag :: n.children.flatMap tags := by
  rw [tags, nodes_eq, List.map_cons, List.map_flatMap]
  rfl

def Shows (n : Node) : Prop := Compact .other n.tags n.toJson.compact

/-! ## Slots -/

section

variable {n : Node}

theorem slot_null : Slot [] .null := ⟨.other, by decide, .word (by decide) (List.all_eq_true.1 rfl)⟩

theorem slot_string (s : String) : Slot [] (string s) := ⟨.other, by decide, .string s⟩

theorem slot_strings (as : List String) : Slot [] (array (as.map string)) := by
  have hslot : Slot (as.flatMap fun _ => []) (array (as.map string)) :=
    slot_array fun s _ => .string s
  rwa [List.flatMap_eq_nil_iff.2 fun _ _ => rfl] at hslot

theorem slot_base (base : Option String) : Slot [] ((base.map string).getD .null) := by
  cases base with
  | none => exact slot_null
  | some s => exact slot_string s

theorem slot_node (h : n.Shows) : Slot n.tags (tagged n (fields n)) := ⟨.other, by decide, h⟩

theorem slot_option {found : Option Node} (h : ∀ n ∈ found.toList, n.Shows) :
    Slot (found.toList.flatMap tags) (toJsonOption found) := by
  cases found with
  | none => exact slot_null
  | some n =>
      rw [Option.toList_some, List.flatMap_singleton]
      exact slot_node (h n (List.mem_singleton_self n))

theorem slot_nodes {ns : List Node} (h : ∀ n ∈ ns, n.Shows) :
    Slot (ns.flatMap tags) (array (toJsonAll ns)) := by
  rw [toJsonAll_eq_map]
  exact slot_array h

theorem slot_literal (value : Literal) : Slot [] value.toJson := by
  cases value with
  | real x =>
      obtain ⟨hne, hword⟩ := word_real x
      refine ⟨.other, by decide, ?_⟩
      rw [Literal.toJson, write, List.append_nil]
      exact .word hne hword
  | integer k =>
      obtain ⟨hne, hword⟩ := word_int k
      refine ⟨.other, by decide, ?_⟩
      rw [Literal.toJson, write, List.append_nil]
      exact .word hne hword
  | char c => exact slot_string _
  | string s => exact slot_string s
  | boolean b => cases b <;> exact ⟨.other, by decide, .word (by decide) (List.all_eq_true.1 rfl)⟩

/-- The slots of a node show the nodes below it, in their order. -/
theorem slots_fields (n : Node) (h : ∀ c ∈ n.children, c.Shows) :
    Slots (n.children.flatMap tags) n.fields := by
  cases n with
  | mainClass name method l =>
      have hmethod := slot_node (h method (.head _))
      simpa [children, fields] using Slots.cons (slot_string name) (.cons hmethod .nil)
  | classDeclaration name base declarations methods l =>
      simp only [children, List.forall_mem_append] at h
      simpa [children, fields] using Slots.cons (slot_string name) (.cons (slot_base base)
        (.cons (slot_nodes h.1) (.cons (slot_nodes h.2) .nil)))
  | methodDeclaration attributes returnType name parameters body l =>
      simp only [children, List.forall_mem_append, List.forall_mem_singleton] at h
      simpa [children, fields] using Slots.cons (slot_strings attributes)
        (.cons (slot_string returnType) (.cons (slot_string name)
          (.cons (slot_nodes h.1) (.cons (slot_node h.2) .nil))))
  | methodBody declarations statements returned l =>
      simp only [children, List.forall_mem_append] at h
      simpa [children, fields] using Slots.cons (slot_nodes h.1.1)
        (.cons (slot_nodes h.1.2) (.cons (slot_option h.2) .nil))
  | variableDeclaration typeName name l =>
      exact .cons (slot_string typeName) (.cons (slot_string name) .nil)
  | block statements l => simpa [children, fields] using Slots.cons (slot_nodes h) .nil
  | ifStatement condition thenBranch elseBranch l =>
      simp only [children, List.forall_mem_cons] at h
      obtain ⟨hcondition, hthen, helse⟩ := h
      simpa [children, fields] using Slots.cons (slot_node hcondition)
        (.cons (slot_node hthen) (.cons (slot_option helse) .nil))
  | whileStatement condition body l =>
      have hbody := slot_node (h body (.tail _ (.head _)))
      simpa [children, fields] using
        Slots.cons (slot_node (h condition (.head _))) (.cons hbody .nil)
  | forStatement first condition update body l =>
      simp only [children, List.forall_mem_append, List.forall_mem_singleton] at h
      obtain ⟨⟨⟨hfirst, hcondition⟩, hupdate⟩, hbody⟩ := h
      simpa [children, fields] using Slots.cons (slot_option hfirst) (.cons (slot_option hcondition)
        (.cons (slot_option hupdate) (.cons (slot_node hbody) .nil)))
  | returnStatement value l =>
      simpa [children, fields] using Slots.cons (slot_node (h value (.head _))) .nil
  | printStatement value l =>
      simpa [children, fields] using Slots.cons (slot_node (h value (.head _))) .nil
  | newObject typeName constructor l =>
      have hconstructor := slot_node (h constructor (.head _))
      simpa [children, fields] using Slots.cons (slot_string typeName) (.cons hconstructor .nil)
  | newArray typeName length l =>
      have hlength := slot_node (h length (.head _))
      simpa [children, fields] using Slots.cons (slot_string typeName) (.cons hlength .nil)
  | methodCall name arguments l =>
      simpa [children, fields] using Slots.cons (slot_string name) (.cons (slot_nodes h) .nil)
  | reference name index l =>
      simpa [children, fields] using Slots.cons (slot_string name) (.cons (slot_option h) .nil)
  | binary operator left right l =>
      have hright := slot_node (h right (.tail _ (.head _)))
      simpa [children, fields] using Slots.cons (slot_string operator.symbol)
        (.cons (slot_node (h left (.head _))) (.cons hright .nil))
  | unary operator operand l =>
      have hoperand := slot_node (h operand (.head _))
      simpa [children, fields] using
        Slots.cons (slot_string operator.symbol) (.cons hoperand .nil)
  | literal value l => exact .cons (slot_literal value) .nil

end

/-- Every tree is shown by a text of the grammar. -/
theorem shows (n : Node) : n.Shows := by
  induction n using induction_children with
  | step n ih =>
      rw [Shows, tags_eq, ← typeName_eq]
      exact compact_object (slots_fields n ih)

end Node

namespace Program

/-- A program is shown by a text of the grammar, with its own type before those of its nodes. -/
theorem shows (p : Program) :
    Compact .other (p.kind.tag :: p.nodes.map (·.kind.tag)) p.toJson.compact := by
  have hclasses : Slots (p.classes.flatMap Node.tags ++ [])
      [("classes", array (Node.toJsonAll p.classes))] :=
    .cons (Node.slot_nodes fun n _ => n.shows) .nil
  rw [List.append_nil] at hclasses
  rw [nodes_eq, List.map_flatMap]
  exact compact_object hclasses

end Program

/-- The text of every tree and of every program is laid out line by line. -/
theorem laidOut_display :
    (∀ n : Node, LaidOut n.display.toList) ∧ ∀ p : Program, LaidOut p.display.toList := by
  constructor
  · intro n
    rw [Node.display, String.toList_ofList]
    exact n.shows.laidOut
  · intro p
    rw [Program.display, String.toList_ofList]
    exact p.shows.laidOut

end MiniJava
