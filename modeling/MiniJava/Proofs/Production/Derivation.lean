import MiniJava.Grammar.Program
import MiniJava.Proofs.Production.Result
import MiniJava.Proofs.Rendering.Program
import MiniJava.Proofs.Tree.Nodes
/-!
# Derivations

Which nodes a run may come up with, whatever it skips and reports.  A derivation tells for each
node what its parts are, in which order their traces follow one another and of which token the
node has its place.  What holds of every tree that is read, errors or none, is proved by
induction on derivations.
-/

namespace MiniJava

namespace Node

theorem isReturn_of_isVariableDeclaration {n : Node} (h : n.isVariableDeclaration = true) :
    n.isReturn = false := by
  cases n with
  | returnStatement => exact absurd h Bool.false_ne_true
  | _ => rfl

end Node

namespace Grammar

inductive Category where
  | expression
  | member
  | declaration
  | statement
  | body (needsReturn : Bool)
  | method
  | mainMethod
  | classDeclaration
  | mainClass
  deriving DecidableEq, Repr

/-- Nodes that are read one after another as one category, and the trace of reading them.  The
trace may hold other steps before, between and after them. -/
inductive Derives : Category → List Node → Trace → Prop
  | skip {c} (s : Trace) : Derives c [] s
  | append {c ns ms s u} : Derives c ns s → Derives c ms u → Derives c (ns ++ ms) (s ++ u)
  | literal {value} {t : Token} : literalValue? t = some value →
      Derives .expression [.literal value t.location] [.read t]
  | reference {name index} {t : Token} {s} : Derives .expression index.toList s →
      Derives .member [.reference name index t.location] (.read t :: s)
  | call {name arguments} {t : Token} {s} : Derives .expression arguments s →
      Derives .member [.methodCall name arguments t.location] (.read t :: s)
  | declared {t u : Token} : t.kind = .identifier → u.kind = .identifier →
      Derives .member [.variableDeclaration t.text u.text t.location] [.read t, .read u]
  | declaredArray {t opening closing u : Token} : t.kind = .identifier →
      opening.terminal = .leftBracket → closing.terminal = .rightBracket → u.kind = .identifier →
      Derives .member [.variableDeclaration (t.text ++ "[]") u.text t.location]
        [.read t, .read opening, .read closing, .read u]
  | primary {ns s} : Derives .member ns s → Derives .expression ns s
  | unary {op n} {t : Token} {s} : Derives .expression [n] s →
      Derives .expression [.unary op n t.location] (.read t :: s)
  | binary {op left right} {t : Token} {s u} : op ≠ .member → Derives .expression [left] s →
      Derives .expression [right] u →
      Derives .expression [.binary op left right t.location] (s ++ .read t :: u)
  | access {left right} {t : Token} {s u} : Derives .expression [left] s →
      Derives .member [right] u →
      Derives .expression [.binary .member left right t.location] (s ++ .read t :: u)
  | array {type length} {t : Token} {s} : Derives .expression [length] s →
      Derives .expression [.newArray (type ++ "[]") length t.location] (.read t :: s)
  | object {type arguments} {t u : Token} {s} : Derives .expression arguments s →
      Derives .expression [.newObject type (.methodCall type arguments u.location) t.location]
        (.read t :: .read u :: s)
  | declaration {type name} {t : Token} {s} :
      Derives .declaration [.variableDeclaration type name t.location] (.read t :: s)
  | expressionStatement {ns s} : Derives .expression ns s → Derives .statement ns s
  | declarationStatement {ns s} : Derives .declaration ns s → Derives .statement ns s
  | ifStatement {tested thenBranch elseBranch} {t : Token} {s u} :
      Derives .expression [tested] s → Derives .statement (thenBranch :: elseBranch.toList) u →
      Derives .statement [.ifStatement tested thenBranch elseBranch t.location]
        (.read t :: (s ++ u))
  | whileStatement {tested body} {t : Token} {s u} : Derives .expression [tested] s →
      Derives .statement [body] u →
      Derives .statement [.whileStatement tested body t.location] (.read t :: (s ++ u))
  | forStatement {first tested update body} {t : Token} {s u} :
      Derives .expression (first.toList ++ tested.toList ++ update.toList) s →
      Derives .statement [body] u →
      Derives .statement [.forStatement first tested update body t.location]
        (.read t :: (s ++ u))
  | printStatement {value} {t : Token} {s} : Derives .expression [value] s →
      Derives .statement [.printStatement value t.location] (.read t :: s)
  | returnStatement {value} {t : Token} {s} : Derives .expression [value] s →
      Derives .statement [.returnStatement value t.location] (.read t :: s)
  | block {statements} {t : Token} {s} : Derives .statement statements s →
      Derives .statement [.block statements t.location] (.read t :: s)
  | body {needsReturn statements returned} {t : Token} {s u} : Derives .statement statements s →
      (needsReturn = true → ∀ n ∈ statements, n.isReturn = false) →
      Derives .statement returned.toList u →
      (∀ n ∈ returned, needsReturn = true ∧ n.isReturn = true) →
      (needsReturn = true → returned = none → u.errors ≠ []) →
      Derives (.body needsReturn)
        [.methodBody (statements.takeWhile Node.isVariableDeclaration)
          (statements.dropWhile Node.isVariableDeclaration) returned t.location]
        (.read t :: (s ++ u))
  | method {attributes : List Token} {type name parameters body} {t : Token} {s u} :
      (∀ a ∈ attributes, isAttribute a = true ∧ .read a ∈ s) →
      Derives .declaration parameters s → Derives (.body true) [body] u →
      Derives .method
        [.methodDeclaration ("public" :: attributes.map (·.text)) type name parameters body
          t.location]
        (.read t :: (s ++ u))
  | mainMethod {name body l} {t : Token} {s u} :
      Derives .declaration [.variableDeclaration "String[]" name l] s →
      Derives (.body false) [body] u →
      Derives .mainMethod
        [.methodDeclaration ["public", "static"] "void" "main"
          [.variableDeclaration "String[]" name l] body t.location]
        (.read t :: (s ++ u))
  | classDeclaration {name base declarations methods} {t : Token} {s u} :
      Derives .statement declarations s → (∀ n ∈ declarations, n.isVariableDeclaration = true) →
      Derives .method methods u →
      Derives .classDeclaration [.classDeclaration name base declarations methods t.location]
        (.read t :: (s ++ u))
  | mainClass {name method} {t : Token} {s} : Derives .mainMethod [method] s →
      Derives .mainClass [.mainClass name method t.location] (.read t :: s)

namespace Derives

variable {c : Category} {ns : List Node} {s : Trace}

theorem after (h : Derives c ns s) (before : Trace) : Derives c ns (before ++ s) :=
  append (skip before) h

theorem andThen (h : Derives c ns s) (later : Trace) : Derives c ns (s ++ later) := by
  have happend := append h (skip later)
  rwa [List.append_nil] at happend

theorem bareReference {name : String} {t : Token} :
    Derives .member [.reference name none t.location] [.read t] :=
  reference (show Derives .expression (none : Option Node).toList [] from skip [])

end Derives

namespace Category

def Admits : Category → Node → Prop
  | expression, n => n.isExpression = true
  | member, n => n.isExpression = true
  | declaration, n => n.isVariableDeclaration = true
  | statement, n => n.kind ∉ [.classDeclaration, .mainClass, .methodDeclaration, .methodBody]
  | body _, n => n.kind = .methodBody
  | method, n => n.kind = .methodDeclaration
  | mainMethod, n => n.kind = .methodDeclaration
  | classDeclaration, n => n.kind = .classDeclaration
  | mainClass, n => n.kind = .mainClass

end Category

theorem Derives.admits {c : Category} {ns : List Node} {s : Trace} (h : Derives c ns s) :
    ∀ n ∈ ns, c.Admits n := by
  induction h with
  | skip => simp
  | append _ _ ihn ihm => exact List.forall_mem_append.2 ⟨ihn, ihm⟩
  | expressionStatement _ ih =>
      intro n hn
      have hn := ih n hn
      cases n with
      | literal value => cases value <;> simp [Category.Admits, Node.kind, Literal.kind]
      | _ => simp_all [Category.Admits, Node.kind, Node.isExpression]
  | declarationStatement _ ih =>
      intro n hn
      have hkind : n.kind = .variableDeclaration := beq_iff_eq.1 (ih n hn)
      simp [Category.Admits, hkind]
  | primary _ ih => exact ih
  | _ => simp [Category.Admits, Node.kind, Node.isExpression, Node.isVariableDeclaration]

/-! ## Nodes below derived nodes -/

def DerivedIn (c : Category) (s : Trace) (n : Node) : Prop := ∃ u, Derives c [n] u ∧ u <:+: s

/-- Every node of some trees is derived in a trace, and none as a main class. -/
def DerivedBelow (s : Trace) (ns : List Node) : Prop :=
  ∀ n ∈ ns, ∀ m ∈ n.nodes, ∃ c, c ≠ .mainClass ∧ DerivedIn c s m

def DerivedThroughout (c : Category) (s : Trace) (ns : List Node) : Prop :=
  ∀ n ∈ ns, DerivedIn c s n ∧ DerivedBelow s n.children

section

variable {c d : Category} {n : Node} {ns ms : List Node} {t : Token} {s u : Trace}

theorem DerivedIn.mono (h : DerivedIn c s n) (hs : s <:+: u) : DerivedIn c u n := by
  obtain ⟨v, hderives, hv⟩ := h
  exact ⟨v, hderives, hv.trans hs⟩

theorem DerivedBelow.mono (h : DerivedBelow s ns) (hs : s <:+: u) : DerivedBelow u ns := by
  intro n hn m hm
  obtain ⟨c, hc, hin⟩ := h n hn m hm
  exact ⟨c, hc, hin.mono hs⟩

theorem DerivedBelow.append (hn : DerivedBelow s ns) (hm : DerivedBelow u ms) :
    DerivedBelow (s ++ u) (ns ++ ms) :=
  List.forall_mem_append.2 ⟨hn.mono (List.prefix_append s u).isInfix,
    hm.mono (List.suffix_append s u).isInfix⟩

theorem DerivedBelow.read (h : DerivedBelow s ns) : DerivedBelow (.read t :: s) ns :=
  h.mono (List.suffix_cons _ _).isInfix

namespace DerivedThroughout

theorem mono (h : DerivedThroughout c s ns) (hs : s <:+: u) : DerivedThroughout c u ns :=
  fun n hn => ⟨(h n hn).1.mono hs, (h n hn).2.mono hs⟩

theorem single (h : Derives c [n] s) (hbelow : DerivedBelow s n.children) :
    DerivedThroughout c s [n] :=
  List.forall_mem_singleton.2 ⟨⟨s, h, List.infix_refl s⟩, hbelow⟩

theorem below (h : DerivedThroughout c s ns) (hc : (c == .mainClass) = false) :
    DerivedBelow s ns :=
  fun n hn => Node.forall_mem_nodes.2 ⟨⟨c, beq_eq_false_iff_ne.1 hc, (h n hn).1⟩, (h n hn).2⟩

theorem recast (h : DerivedThroughout c s ns) (hd : ∀ {n u}, Derives c [n] u → Derives d [n] u) :
    DerivedThroughout d s ns := by
  intro n hn
  obtain ⟨⟨u, hderives, hu⟩, hbelow⟩ := h n hn
  exact ⟨⟨u, hd hderives, hu⟩, hbelow⟩

end DerivedThroughout

/-- All nodes below derived nodes are derived as well. -/
theorem Derives.throughout (h : Derives c ns s) : DerivedThroughout c s ns := by
  have hnone : ∀ {s}, DerivedBelow s [] := List.forall_mem_nil _
  induction h with
  | skip => exact List.forall_mem_nil _
  | append _ _ ihn ihm =>
      exact List.forall_mem_append.2 ⟨ihn.mono (List.prefix_append _ _).isInfix,
        ihm.mono (List.suffix_append _ _).isInfix⟩
  | primary _ ih => exact ih.recast primary
  | expressionStatement _ ih => exact ih.recast expressionStatement
  | declarationStatement _ ih => exact ih.recast declarationStatement
  | literal hvalue => exact .single (literal hvalue) hnone
  | reference h ih => exact .single (reference h) (ih.below rfl).read
  | call h ih => exact .single (call h) (ih.below rfl).read
  | declared ht hu => exact .single (declared ht hu) hnone
  | declaredArray ht ho hc hu => exact .single (declaredArray ht ho hc hu) hnone
  | unary h ih => exact .single (unary h) (ih.below rfl).read
  | binary hop hl hr ihl ihr =>
      exact .single (binary hop hl hr) ((ihl.below rfl).append (ihr.below rfl).read)
  | access hl hr ihl ihr =>
      exact .single (access hl hr) ((ihl.below rfl).append (ihr.below rfl).read)
  | array h ih => exact .single (array h) (ih.below rfl).read
  | @object type _ _ u _ h ih =>
      have hcall : Derives .member [.methodCall type _ u.location] _ := call h
      have hbelow := DerivedThroughout.single hcall (ih.below rfl).read
      exact .single (object h) (hbelow.below rfl).read
  | declaration => exact .single declaration hnone
  | ifStatement hc hb ihc ihb =>
      exact .single (ifStatement hc hb) ((ihc.below rfl).append (ihb.below rfl)).read
  | whileStatement hc hb ihc ihb =>
      exact .single (whileStatement hc hb) ((ihc.below rfl).append (ihb.below rfl)).read
  | forStatement hc hb ihc ihb =>
      exact .single (forStatement hc hb) ((ihc.below rfl).append (ihb.below rfl)).read
  | printStatement h ih => exact .single (printStatement h) (ih.below rfl).read
  | returnStatement h ih => exact .single (returnStatement h) (ih.below rfl).read
  | block h ih => exact .single (block h) (ih.below rfl).read
  | body hs hreturns hr hreturned hnone ihs ihr =>
      refine .single (body hs hreturns hr hreturned hnone) ?_
      rw [Node.children, List.takeWhile_append_dropWhile]
      exact ((ihs.below rfl).append (ihr.below rfl)).read
  | method hattributes hp hb ihp ihb =>
      exact .single (method hattributes hp hb) ((ihp.below rfl).append (ihb.below rfl)).read
  | mainMethod hp hb ihp ihb =>
      exact .single (mainMethod hp hb) ((ihp.below rfl).append (ihb.below rfl)).read
  | classDeclaration hd hkinds hm ihd ihm =>
      exact .single (classDeclaration hd hkinds hm)
        ((ihd.below rfl).append (ihm.below rfl)).read
  | mainClass h ih => exact .single (mainClass h) (ih.below rfl).read

theorem Derives.exists_derivedIn (h : Derives c ns s) :
    ∀ n ∈ ns, ∀ m ∈ n.nodes, ∃ d, DerivedIn d s m := by
  intro n hn
  obtain ⟨hself, hbelow⟩ := h.throughout n hn
  refine Node.forall_mem_nodes.2 ⟨⟨c, hself⟩, fun k hk m hm => ?_⟩
  obtain ⟨d, -, hm⟩ := hbelow k hk m hm
  exact ⟨d, hm⟩

private theorem Derives.own_literal (h : Derives c ns s) {value : Literal} {l : Location}
    (hn : .literal value l ∈ ns) :
    ∃ t ∈ s.tokens, literalValue? t = some value ∧ t.location = l := by
  induction h with
  | skip => exact absurd hn (List.not_mem_nil)
  | append _ _ ihn ihm =>
      rw [Trace.tokens_append]
      rcases List.mem_append.1 hn with hn | hn
      · obtain ⟨t, ht, hvalue⟩ := ihn hn
        exact ⟨t, List.mem_append_left _ ht, hvalue⟩
      · obtain ⟨t, ht, hvalue⟩ := ihm hn
        exact ⟨t, List.mem_append_right _ ht, hvalue⟩
  | primary _ ih => exact ih hn
  | expressionStatement _ ih => exact ih hn
  | declarationStatement _ ih => exact ih hn
  | @literal _ t hvalue =>
      obtain ⟨rfl, rfl⟩ := Node.literal.inj (List.mem_singleton.1 hn)
      exact ⟨t, List.mem_singleton.2 rfl, hvalue, rfl⟩
  | _ => exact absurd (List.mem_singleton.1 hn) nofun

/-- Every literal in derived trees has its value and its place from a token that was read. -/
theorem Derives.literal_mem (h : Derives c ns s) {n : Node} (hn : n ∈ ns) {value : Literal}
    {l : Location} (hm : .literal value l ∈ n.nodes) :
    ∃ t ∈ s.tokens, literalValue? t = some value ∧ t.location = l := by
  obtain ⟨d, u, hderives, before, after, rfl⟩ := h.exists_derivedIn n hn _ hm
  obtain ⟨t, ht, hvalue⟩ := hderives.own_literal (List.mem_singleton.2 rfl)
  rw [Trace.tokens_append, Trace.tokens_append]
  exact ⟨t, List.mem_append_left _ (List.mem_append_right _ ht), hvalue⟩

end

end Grammar

end MiniJava
