import MiniJava.Proofs.Grammar.Derivation
import MiniJava.Proofs.Production.CleanRun
import MiniJava.Tree.Equality
/-!
# What stands where an expression belongs

The slots of a node that are meant for expressions hold expressions, and after a dot there is a
variable or a call, with one exception: two names in a row are taken for a declaration wherever a
name may begin an operand, and nothing is reported.
-/

namespace MiniJava

namespace Node

/-- The nodes directly below a node where an expression belongs. -/
def expressionSlots : Node → List Node
  | ifStatement condition _ _ _ => [condition]
  | whileStatement condition _ _ => [condition]
  | forStatement first condition update _ _ =>
    first.toList ++ condition.toList ++ update.toList
  | returnStatement value _ => [value]
  | printStatement value _ => [value]
  | newArray _ length _ => [length]
  | methodCall _ arguments _ => arguments
  | reference _ index _ => index.toList
  | binary _ left right _ => [left, right]
  | unary _ operand _ => [operand]
  | _ => []

def isMemberName : Node → Bool
  | methodCall .. | reference .. => true
  | _ => false

def isOperand (n : Node) : Bool := n.isExpression && !n.isVariableDeclaration

theorem isOperand_of_isMemberName {n : Node} (h : n.isMemberName = true) : n.isOperand = true := by
  cases n with
  | methodCall => rfl
  | reference => rfl
  | _ => exact absurd h Bool.false_ne_true

/-- A declaration that is written among some tokens as two names in a row, or with a pair of
brackets between them. -/
inductive DeclaredIn (ts : List Token) : Node → Prop
  | variable {t u : Token} : t.kind = .identifier → u.kind = .identifier → [t, u] <:+: ts →
      DeclaredIn ts (.variableDeclaration t.text u.text t.location)
  | array {t opening closing u : Token} : t.kind = .identifier →
      opening.terminal = .leftBracket → closing.terminal = .rightBracket → u.kind = .identifier →
      [t, opening, closing, u] <:+: ts →
      DeclaredIn ts (.variableDeclaration (t.text ++ "[]") u.text t.location)

/-- The slots for expressions hold operands, and the one after a dot a variable or a call, but for
declarations among the tokens. -/
def OperandsHold (ts : List Token) (n : Node) : Prop :=
  (∀ e ∈ n.expressionSlots, e.isOperand = true ∨ DeclaredIn ts e) ∧
    ∀ left right l, n = .binary .member left right l →
      right.isMemberName = true ∨ DeclaredIn ts right

end Node

namespace Grammar

def Category.Operates (ts : List Token) : Category → Node → Prop
  | expression, n => n.isOperand = true ∨ n.DeclaredIn ts
  | member, n => n.isMemberName = true ∨ n.DeclaredIn ts
  | _, _ => True

section

variable {c : Category} {n left right : Node} {ns : List Node} {t : Token} {s u : Trace}
  {ts : List Token} {op : BinaryOperator} {l : Location}

theorem Trace.tokens_infix (h : u <:+: s) : u.tokens <:+: s.tokens := by
  obtain ⟨before, after, rfl⟩ := h
  exact ⟨Trace.tokens before, Trace.tokens after, by simp⟩

private theorem infix_parts (h : (s ++ u).tokens <:+: ts) :
    s.tokens <:+: ts ∧ u.tokens <:+: ts :=
  ⟨(Trace.tokens_infix (List.prefix_append s u).isInfix).trans h,
    (Trace.tokens_infix (List.suffix_append s u).isInfix).trans h⟩

private theorem infix_rest (h : Trace.tokens (.read t :: s) <:+: ts) : s.tokens <:+: ts :=
  (List.suffix_cons t s.tokens).isInfix.trans h

private theorem operates_single (hoperates : c.Operates ts n)
    (hslots : ∀ e ∈ n.expressionSlots, e.isOperand = true ∨ e.DeclaredIn ts)
    (hdot : ∀ left right l, n = .binary .member left right l →
      right.isMemberName = true ∨ right.DeclaredIn ts) :
    ∀ m ∈ [n], c.Operates ts m ∧ m.OperandsHold ts :=
  List.forall_mem_singleton.2 ⟨hoperates, hslots, hdot⟩

theorem Category.Operates.expression_of_member (h : Category.member.Operates ts n) :
    Category.expression.Operates ts n :=
  h.imp_left Node.isOperand_of_isMemberName

theorem Derives.operandsHold (h : Derives c ns s) (hs : s.tokens <:+: ts) :
    ∀ n ∈ ns, c.Operates ts n ∧ n.OperandsHold ts := by
  have hnone : ∀ e ∈ ([] : List Node), e.isOperand = true ∨ e.DeclaredIn ts := List.forall_mem_nil _
  induction h with
  | skip => exact List.forall_mem_nil _
  | append _ _ ihn ihm =>
      obtain ⟨hs, hu⟩ := infix_parts hs
      exact List.forall_mem_append.2 ⟨ihn hs, ihm hu⟩
  | primary _ ih => exact fun n hn => ⟨(ih hs n hn).1.expression_of_member, (ih hs n hn).2⟩
  | expressionStatement _ ih => exact fun n hn => ⟨trivial, (ih hs n hn).2⟩
  | declarationStatement _ ih => exact fun n hn => ⟨trivial, (ih hs n hn).2⟩
  | @literal value =>
      exact operates_single (.inl (by cases value <;> rfl)) hnone nofun
  | reference _ ih =>
      exact operates_single (.inl rfl) (fun e he => (ih (infix_rest hs) e he).1) nofun
  | call _ ih =>
      exact operates_single (.inl rfl) (fun e he => (ih (infix_rest hs) e he).1) nofun
  | declared ht hu => exact operates_single (.inr (.variable ht hu hs)) hnone nofun
  | declaredArray ht ho hc hu => exact operates_single (.inr (.array ht ho hc hu hs)) hnone nofun
  | unary _ ih =>
      exact operates_single (.inl rfl) (fun e he => (ih (infix_rest hs) e he).1) nofun
  | @binary op left right t s u hop _ _ ihl ihr =>
      obtain ⟨hs, hu⟩ := infix_parts hs
      have hleft := (ihl hs left (List.mem_singleton.2 rfl)).1
      have hright := (ihr (infix_rest hu) right (List.mem_singleton.2 rfl)).1
      refine operates_single (.inl rfl) ?_ ?_
      · exact List.forall_mem_cons.2 ⟨hleft, List.forall_mem_singleton.2 hright⟩
      · rintro _ _ _ ⟨rfl⟩
        exact absurd rfl hop
  | @access left right t s u _ _ ihl ihr =>
      obtain ⟨hs, hu⟩ := infix_parts hs
      have hleft := (ihl hs left (List.mem_singleton.2 rfl)).1
      have hright := (ihr (infix_rest hu) right (List.mem_singleton.2 rfl)).1
      refine operates_single (.inl rfl) ?_ ?_
      · exact List.forall_mem_cons.2
          ⟨hleft, List.forall_mem_singleton.2 hright.expression_of_member⟩
      · rintro _ _ _ ⟨rfl⟩
        exact hright
  | array _ ih =>
      exact operates_single (.inl rfl) (fun e he => (ih (infix_rest hs) e he).1) nofun
  | object => exact operates_single (.inl rfl) hnone nofun
  | ifStatement _ _ ih =>
      have hs := (infix_parts (infix_rest hs)).1
      exact operates_single trivial (fun e he => (ih hs e he).1) nofun
  | whileStatement _ _ ih =>
      have hs := (infix_parts (infix_rest hs)).1
      exact operates_single trivial (fun e he => (ih hs e he).1) nofun
  | forStatement _ _ ih =>
      have hs := (infix_parts (infix_rest hs)).1
      exact operates_single trivial (fun e he => (ih hs e he).1) nofun
  | printStatement _ ih =>
      exact operates_single trivial (fun e he => (ih (infix_rest hs) e he).1) nofun
  | returnStatement _ ih =>
      exact operates_single trivial (fun e he => (ih (infix_rest hs) e he).1) nofun
  | _ => exact operates_single trivial hnone nofun

theorem Derives.nodes_operandsHold (h : Derives c ns s) (hs : s.tokens <:+: ts) :
    ∀ n ∈ ns, ∀ m ∈ n.nodes, m.OperandsHold ts := by
  intro n hn m hm
  obtain ⟨d, u, hderives, hu⟩ := h.exists_derivedIn n hn m hm
  exact (hderives.operandsHold ((Trace.tokens_infix hu).trans hs) m (List.mem_singleton.2 rfl)).2

end

/-- Two names in a row are read as a declaration, wherever a name begins an operand. -/
theorem named_declares (operand : Parse Node) {t u : Token} (ht : t.kind = .identifier)
    (hu : u.kind = .identifier) (finish : Location) (rest : List Token) :
    (named operand).Reads finish [t, u] rest
      (.variableDeclaration t.text u.text t.location) := by
  refine (reads_expectKind_bind (by decide)).2 ⟨t, [u], rfl, ht, Parse.reads_current_bind.2 ?_⟩
  have hfront : Parse.frontOf finish ([u] ++ rest) = u := rfl
  rw [hfront, if_pos hu]
  exact (Parse.reads_advance_bind (List.cons_ne_nil _ _)).2
    ⟨u, [], rfl, Parse.reads_pure.2 ⟨rfl, rfl⟩⟩

/-- From wherever a statement, an expression or a program is parsed, the slots for expressions in
its tree hold operands, and after a dot there is a variable or a call; what else may be there is a
declaration of two names that stand in a row among the tokens.  Such names are always read so. -/
theorem operands_hold (q : Parser) :
    (∀ p ∈ [statement, expression], ∀ n, (q.run p).1 = .ok n →
      ∀ m ∈ n.nodes, m.OperandsHold q.ahead) ∧
    (∀ m ∈ q.program.1.nodes, m.OperandsHold q.ahead) ∧
    ∀ (operand : Parse Node) (t u : Token), t.kind = .identifier → u.kind = .identifier →
      ∀ finish rest, (named operand).Reads finish [t, u] rest
        (.variableDeclaration t.text u.text t.location) := by
  have hconstruct : ∀ {p : Parse Node} {c : Category}, Deriving c p →
      ∀ n, (q.run p).1 = .ok n → ∀ m ∈ n.nodes, m.OperandsHold q.ahead := by
    intro p c hp n hn
    obtain ⟨s, hderives, hs⟩ := Parser.run_derives hp hn
    exact hderives.nodes_operandsHold hs.isInfix n (List.mem_singleton.2 rfl)
  refine ⟨?_, ?_, fun operand t u ht hu finish rest => named_declares operand ht hu finish rest⟩
  · exact List.forall_mem_cons.2
      ⟨hconstruct deriving_statement, List.forall_mem_singleton.2 (hconstruct deriving_expression)⟩
  · obtain ⟨first, others, u, v, hclasses, hfirst, hothers, htokens, -⟩ := q.program_derives
    have hinfix : (u ++ v).tokens <:+: q.ahead := htokens ▸ List.infix_refl _
    obtain ⟨hu, hv⟩ := infix_parts hinfix
    rw [Program.nodes_eq, hclasses, List.forall_mem_flatMap]
    exact List.forall_mem_append.2
      ⟨hfirst.nodes_operandsHold hu, hothers.nodes_operandsHold hv⟩

section

private def slotsPlace (column : Nat) : Location := ⟨⟨1, column⟩, "Slots"⟩

/-- An access whose member is a declaration. -/
def accessOfDeclaration : Node :=
  .binary .member (.reference "a" none (slotsPlace 20))
    (.variableDeclaration "Foo" "b" (slotsPlace 22)) (slotsPlace 21)

/-- A declaration after a dot is accepted, and nothing is reported. -/
theorem declaration_after_dot :
    let q := Parser.ofStream (.ofText "Slots" "System.out.println(a.Foo b);")
    q.statement.1 = .ok (.printStatement accessOfDeclaration (slotsPlace 1)) ∧
      q.statement.2.stream.log.entries = [] ∧
      ∃ e ∈ accessOfDeclaration.expressionSlots, e.isVariableDeclaration = true := by
  intro q
  refine ⟨?_, ?_, ?_⟩
  · decide +kernel
  · decide +kernel
  · decide +kernel

theorem operands_hold_printed :
    let q := Parser.ofStream (.ofText "Slots" "System.out.println(a.Foo b);")
    let n : Node := .printStatement accessOfDeclaration (slotsPlace 1)
    let foo : Token := ⟨.name "Foo", slotsPlace 22⟩
    let b : Token := ⟨.name "b", slotsPlace 26⟩
    (q.run statement).1 = .ok n ∧ accessOfDeclaration ∈ n.nodes ∧
      accessOfDeclaration.OperandsHold q.ahead ∧
      (named operand).Reads q.finish [foo, b] [] (.variableDeclaration "Foo" "b" foo.location) := by
  intro q n foo b
  have hrun : (q.run statement).1 = .ok n := by decide +kernel
  have hmem : accessOfDeclaration ∈ n.nodes := by
    rw [Node.nodes_eq]
    exact List.mem_cons_of_mem _ (List.mem_flatMap_of_mem (List.mem_cons_self ..)
      (Node.mem_nodes_self _))
  obtain ⟨hproductions, -, hnames⟩ := operands_hold q
  refine ⟨hrun, hmem, ?_, ?_⟩
  · exact hproductions statement (List.mem_cons_self ..) n hrun accessOfDeclaration hmem
  · exact hnames operand foo b rfl rfl q.finish []

end

end Grammar

end MiniJava
