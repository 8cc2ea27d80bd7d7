import MiniJava.Proofs.Grammar.Places
import MiniJava.Proofs.Production.Complaint
/-!
# What the grammar complains about

Every production of the grammar complains where it stops.  Its branches for words that no source
yields are never taken: a literal has a value, what has a precedence is an operator between two
operands, and the one construct that is not supported is a keyword met where an expression
should begin.
-/

namespace MiniJava.Grammar

open Parse (current advance fix report)

/-! ## Words of a source -/

def literalKinds : List TokenKind := [.integer, .real, .charLiteral, .stringLiteral, .boolean]

theorem kind_classify_of_literal {word : String}
    (h : (Lexicon.classify word).kind ∈ literalKinds) :
    (Lexicon.classify word).kind = .boolean := by
  have hkind := Lexicon.kind_classify word
  revert h hkind
  generalize (Lexicon.classify word).kind = k
  cases k <;> decide

theorem exists_literalValue? {t : Token} (h : t.WellFormed) (ht : t.kind ∈ literalKinds) :
    ∃ value, literalValue? t = some value := by
  obtain ⟨x, l⟩ := t
  have hx : x.WellFormed := h
  cases hx with
  | word text =>
      have hkind := kind_classify_of_literal ht
      refine ⟨.boolean ((Lexicon.classify text).terminal == .trueLiteral), ?_⟩
      simp only [literalValue?, hkind]
  | integer => exact ⟨_, rfl⟩
  | real => exact ⟨_, rfl⟩
  | char => exact ⟨_, rfl⟩
  | string => exact ⟨_, rfl⟩

theorem literal_run {t : Token} (h : t.WellFormed) (ht : t.kind ∈ literalKinds)
    (finish : Location) (rest : List Token) :
    ∃ value, literal.run finish (t :: rest) =
      ⟨.ok (.literal value t.location), [.read t], rest⟩ := by
  obtain ⟨value, hvalue⟩ := exists_literalValue? h ht
  have hadvance : advance.run finish (t :: rest) = ⟨.ok t, [.read t], rest⟩ := rfl
  refine ⟨value, ?_⟩
  rw [literal, Parse.run_bind_of_ok hadvance, hvalue]
  rfl

/-- Just the operators between two operands have a precedence. -/
theorem precedence_nonneg_iff {t : Token} (h : t.Met) :
    0 ≤ t.precedence ↔ (binaryOperator? t.terminal).isSome = true := by
  have hnone : ∀ x : Lexeme, x.terminal = .unreserved → x.precedence = -1 →
      (0 ≤ x.precedence ↔ (binaryOperator? x.terminal).isSome = true) := by
    intro x hx hprecedence
    rw [hx, hprecedence]
    decide
  rcases h with h | h
  · rcases h.forms with h | ⟨x, hx, h⟩ | ⟨-, h⟩
    · exact hnone _ (by rw [h]; rfl) (by rw [h]; rfl)
    · rw [h, Terminal.lexeme_terminal hx]
      revert hx
      cases x <;> decide
    · exact hnone _ (by rw [h]; rfl) (by rw [h]; rfl)
  · exact hnone _ (by rw [h]; rfl) (by rw [h]; rfl)

/-! ## Expressions -/

section

variable {drops : Prop} {operand statement : Parse Node} {t : Token}

theorem complains_climb (h : Complains drops operand) (b : Int × Node) :
    Complains drops (climb operand b) := by
  refine complains_fix (fun self hself ⟨least, left⟩ => ?_) b
  refine complains_current_bind fun t => complainsAt_of_met fun ht => ?_
  split
  · exact complains_pure _ t
  · next hgo =>
    have hoperator := (precedence_nonneg_iff ht).1 (by omega)
    obtain ⟨operator, hoperator⟩ := Option.isSome_iff_exists.1 hoperator
    refine complainsAt_advance_bind ?_
    rw [hoperator]
    refine complains_bind h fun right => complains_current_bind fun next => ?_
    dsimp only
    split
    · exact complains_bind (hself _) (fun right => hself _) next
    · exact complains_bind (complains_pure _) (fun right => hself _) next

theorem complains_expressionOf (h : Complains drops operand) :
    Complains drops (expressionOf operand) :=
  complains_bind h fun left => complains_climb h (0, left)

theorem complains_arguments (h : Complains drops operand) :
    Complains drops (arguments operand) := by
  refine complains_bind (complains_expect _) fun _ => ?_
  refine complains_bind (complains_accept _) fun none => ?_
  split
  · exact complains_pure _
  · refine complains_bind (complains_commaSeparated (complains_expressionOf h)) fun found => ?_
    exact complains_bind (complains_expect _) fun _ => complains_pure _

theorem complains_lengthCall : Complains drops lengthCall :=
  complains_bind (complains_expect _) fun _ => complains_pure _

theorem complains_bracketed (h : Complains drops operand) (name : Token) :
    Complains drops (bracketed operand name) := by
  refine complains_bind (complains_accept _) fun closed => ?_
  split
  · exact complains_bind complains_identifier fun _ => complains_pure _
  · refine complains_bind (complains_expressionOf h) fun index => ?_
    exact complains_bind (complains_expect _) fun _ => complains_pure _

theorem complains_named (h : Complains drops operand) : Complains drops (named operand) := by
  refine complains_bind (complains_expectKind _) fun name => complains_current_bind fun t => ?_
  split
  · exact complains_advance_bind (fun _ => complains_pure _) t
  split
  · exact complains_bind (complains_arguments h) (fun _ => complains_pure _) t
  · refine complains_bind (complains_accept _) (fun opened => ?_) t
    split
    · exact complains_bracketed h name
    · exact complains_pure _

theorem complains_allocatedType : Complains drops allocatedType := by
  refine complains_current_bind fun t => ?_
  split
  · exact complains_advance t
  · exact complains_expectKind _ t

theorem complains_allocation (h : Complains drops operand) :
    Complains drops (allocation operand) := by
  refine complains_bind (complains_expect _) fun start => ?_
  refine complains_bind complains_allocatedType fun type => ?_
  refine complains_bind (complains_accept _) fun opened => ?_
  split
  · refine complains_bind (complains_expressionOf h) fun length => ?_
    exact complains_bind (complains_expect _) fun _ => complains_pure _
  split
  · exact complains_refuse _
  · exact complains_bind (complains_arguments h) fun _ => complains_pure _

theorem complains_literal (h : t.WellFormed) (ht : t.kind ∈ literalKinds) :
    ComplainsAt drops t literal := by
  obtain ⟨value, hvalue⟩ := exists_literalValue? h ht
  refine complainsAt_advance_bind ?_
  rw [hvalue]
  exact complains_pure _

theorem complains_negation (h : Complains drops operand) : Complains drops (negation operand) :=
  complains_bind (complains_expect _) fun _ => complains_bind h fun _ => complains_pure _

theorem complains_parenthesised (h : Complains drops operand) :
    Complains drops (parenthesised operand) := by
  refine complains_bind (complains_expect _) fun _ => ?_
  refine complains_bind (complains_expressionOf h) fun inner => ?_
  exact complains_bind (complains_expect _) fun _ => complains_pure _

theorem complains_keywordPrimary (h : Complains drops operand) (ht : t.kind = .keyword) :
    ComplainsAt drops t (keywordPrimary operand t) := by
  unfold keywordPrimary
  split
  · exact complains_advance_bind (fun _ => complains_pure _) t
  · exact complains_allocation h t
  · exact complains_lengthCall t
  · next hthis hnew hlength =>
    refine complainsAt_fail ⟨rfl, rfl, ht, ?_⟩
    simp only [List.mem_cons, List.not_mem_nil, or_false, not_or]
    exact ⟨hthis, hnew, hlength⟩

theorem complains_primary (h : Complains drops operand) : Complains drops (primary operand) := by
  refine complains_current_bind fun t => complainsAt_of_met fun ht => ?_
  have hword : t.kind ≠ .endOfFile → t.WellFormed := by
    intro hkind
    rcases ht with ht | ht
    · exact ht
    · exact absurd (congrArg Lexeme.kind ht) hkind
  have hliteral : t.kind ∈ literalKinds → ComplainsAt drops t literal := by
    intro hkind
    refine complains_literal (hword ?_) hkind
    intro hend
    rw [hend] at hkind
    exact absurd hkind (by decide)
  have hnoExpression : ComplainsAt drops t
      (Parse.fail ⟨t.location, .noExpression t.toLexeme⟩ : Parse Node) :=
    complainsAt_fail ⟨rfl, rfl⟩
  split
  · next hkind => exact hliteral (by rw [hkind]; decide)
  · next hkind => exact hliteral (by rw [hkind]; decide)
  · next hkind => exact hliteral (by rw [hkind]; decide)
  · next hkind => exact hliteral (by rw [hkind]; decide)
  · next hkind => exact hliteral (by rw [hkind]; decide)
  · exact complains_named h t
  · next hkind => exact complains_keywordPrimary h hkind
  · split
    · exact complains_negation h t
    · exact hnoExpression
  · split
    · exact complains_parenthesised h t
    · exact hnoExpression
  · exact hnoExpression
  · exact complainsAt_fail ⟨rfl, rfl⟩
  · next hkind =>
    rw [hkind] at hword
    exact absurd hkind (hword (by decide)).kind_ne_unknown

theorem complains_memberName (h : Complains drops operand) :
    Complains drops (memberName operand) := by
  refine complains_current_bind fun t => ?_
  split
  · exact complains_lengthCall t
  split
  · exact complains_named h t
  · exact complains_refuse _ t

theorem complains_members (h : Complains drops operand) (left : Node) :
    Complains drops (members operand left) := by
  refine complains_fix (fun self hself left => complains_current_bind fun t => ?_) left
  split
  · refine complains_advance_bind (fun _ => ?_) t
    exact complains_bind (complains_memberName h) fun member => hself _
  · exact complains_pure _ t

theorem complains_operand : Complains drops Grammar.operand := by
  refine complains_fix (fun self hself _ => ?_) ()
  exact complains_bind (complains_primary (hself ())) fun left => complains_members (hself ()) left

theorem complains_expression : Complains drops expression :=
  complains_expressionOf complains_operand

/-! ## Statements -/

theorem complains_typeName : Complains drops typeName := by
  refine complains_current_bind fun t => ?_
  split
  · refine complains_advance_bind (fun _ => complains_bind (complains_accept _) fun opened => ?_) t
    split
    · exact complains_bind (complains_expect _) fun _ => complains_pure _
    · exact complains_pure _
  · exact complains_refuse _ t

theorem complains_declaration : Complains drops declaration :=
  complains_current_bind fun t => complains_bind complains_typeName
    (fun _ => complains_bind complains_identifier fun _ => complains_pure _) t

theorem complains_declarationStatement : Complains drops declarationStatement :=
  complains_bind complains_declaration fun _ => complains_bind (complains_expect _) fun _ =>
    complains_pure _

theorem complains_condition : Complains drops condition :=
  complains_parenthesised complains_operand

theorem complains_clause (terminator : Terminal) : Complains drops (clause terminator) := by
  refine fun front => complainsAt_check_bind fun found => ?_
  split
  · exact complains_pure _ front
  · exact complains_map complains_expression front

theorem complains_ifStatement (h : Complains drops statement) :
    Complains drops (ifStatement statement) := by
  refine complains_bind (complains_expect _) fun t => ?_
  refine complains_bind complains_condition fun tested => complains_bind h fun thenBranch => ?_
  refine complains_bind (complains_accept _) fun more => ?_
  split
  · exact complains_bind h fun elseBranch => complains_pure _
  · exact complains_pure _

theorem complains_whileStatement (h : Complains drops statement) :
    Complains drops (whileStatement statement) :=
  complains_bind (complains_expect _) fun _ => complains_bind complains_condition fun _ =>
    complains_bind h fun _ => complains_pure _

theorem complains_forStatement (h : Complains drops statement) :
    Complains drops (forStatement statement) := by
  refine complains_bind (complains_expect _) fun t => ?_
  refine complains_bind (complains_expect _) fun _ => ?_
  refine complains_bind (complains_clause _) fun first => ?_
  refine complains_bind (complains_expect _) fun _ => ?_
  refine complains_bind (complains_clause _) fun tested => ?_
  refine complains_bind (complains_expect _) fun _ => ?_
  refine complains_bind (complains_clause _) fun update => ?_
  refine complains_bind (complains_expect _) fun _ => ?_
  exact complains_bind h fun body => complains_pure _

theorem complains_printStatement : Complains drops printStatement :=
  complains_bind (complains_expect _) fun _ => complains_bind complains_condition fun _ =>
    complains_bind (complains_expect _) fun _ => complains_pure _

theorem complains_returnStatement : Complains drops returnStatement :=
  complains_bind (complains_expect _) fun _ => complains_bind complains_expression fun _ =>
    complains_bind (complains_expect _) fun _ => complains_pure _

theorem complains_block (h : Complains drops statement) : Complains drops (block statement) :=
  complains_bind (complains_expect _) fun _ =>
    complains_bind (complains_items (complains_map h)) fun _ =>
      complains_bind (complains_expect _) fun _ => complains_pure _

theorem complains_expressionStatement : Complains drops expressionStatement :=
  complains_bind complains_expression fun _ =>
    complains_bind (complains_accept _) fun _ => complains_pure _

theorem complains_statementOf (h : Complains drops statement) :
    Complains drops (statementOf statement) := by
  refine complains_current_bind fun t => ?_
  split
  · exact complains_ifStatement h t
  · exact complains_whileStatement h t
  · exact complains_forStatement h t
  · exact complains_printStatement t
  · exact complains_returnStatement t
  · exact complains_block h t
  · split
    · exact complains_declarationStatement t
    · exact complains_expressionStatement t

theorem complains_statement : Complains drops Grammar.statement :=
  complains_fix (fun _ hself _ => complains_statementOf (hself ())) ()

/-! ## Classes and methods -/

theorem complains_bodyReturn : Complains drops bodyReturn := by
  refine fun front => complainsAt_check_bind fun found => ?_
  split
  · exact complains_recovering (complains_map complains_returnStatement) front
  · exact complains_report_unexpected _ _ front

theorem complains_methodBody (needsReturn : Bool) : Complains drops (methodBody needsReturn) := by
  refine complains_bind (complains_expect _) fun t => ?_
  refine complains_bind (complains_items (complains_map complains_statement)) fun found => ?_
  dsimp only
  split
  · exact complains_bind complains_bodyReturn fun returned =>
      complains_bind (complains_expect _) fun _ => complains_pure _
  · exact complains_bind (complains_pure _) fun returned =>
      complains_bind (complains_expect _) fun _ => complains_pure _

theorem complains_mainMethod : Complains drops mainMethod := by
  refine complains_bind (complains_expect _) fun start => ?_
  refine complains_bind (complains_expect _) fun _ => ?_
  refine complains_bind (complains_expect _) fun _ => ?_
  refine complains_bind (complains_expect _) fun _ => ?_
  refine complains_bind (complains_expect _) fun _ => ?_
  refine complains_bind (complains_expect _) fun type => ?_
  refine complains_bind (complains_expect _) fun _ => ?_
  refine complains_bind (complains_expect _) fun _ => ?_
  refine complains_bind complains_identifier fun name => ?_
  refine complains_bind (complains_expect _) fun _ => ?_
  exact complains_bind (complains_methodBody _) fun body => complains_pure _

theorem complains_mainClass : Complains drops mainClass := by
  refine complains_bind (complains_expect _) fun t => ?_
  refine complains_bind complains_identifier fun name => ?_
  refine complains_bind (complains_expect _) fun _ => ?_
  refine complains_bind complains_mainMethod fun method => ?_
  exact complains_bind (complains_expect _) fun _ => complains_pure _

theorem complains_attributes : Complains drops attributes := by
  refine complains_fix (fun self hself _ => complains_current_bind fun t => ?_) ()
  split
  · exact complains_advance_bind (fun _ => complains_map (hself ())) t
  · exact complains_pure _ t

theorem complains_returnType : Complains drops returnType := by
  refine complains_bind (complains_accept _) fun isVoid => ?_
  split
  · exact complains_pure _
  · exact complains_typeName

theorem complains_methodName : Complains drops methodName := by
  refine complains_bind (complains_accept _) fun isMain => ?_
  split
  · exact complains_pure _
  · exact complains_identifier

theorem complains_parameters : Complains drops parameters := by
  refine complains_bind (complains_expect _) fun _ => ?_
  refine complains_bind (complains_accept _) fun none => ?_
  split
  · exact complains_pure _
  · refine complains_bind (complains_commaSeparated complains_declaration) fun found => ?_
    exact complains_bind (complains_expect _) fun _ => complains_pure _

theorem complains_method : Complains drops method := by
  refine complains_bind (complains_expect _) fun t => ?_
  refine complains_bind complains_attributes fun others => ?_
  refine complains_bind complains_returnType fun type => ?_
  refine complains_bind complains_methodName fun name => ?_
  refine complains_bind complains_parameters fun found => ?_
  exact complains_bind (complains_methodBody _) fun body => complains_pure _

theorem complains_baseClass : Complains drops baseClass := by
  refine complains_bind (complains_accept _) fun extended => ?_
  split
  · exact complains_map complains_identifier
  · exact complains_pure _

end

/-! ## Nodes that may be dropped -/

/-- What a production yields stands at a token that was read for it. -/
theorem Deriving.place_mem {c : Category} {p : Parse Node} (h : Deriving c p) :
    Ensures p fun n s => ∃ t ∈ Trace.tokens s, n.location = t.location := by
  refine h.mono fun n s hderives => ?_
  have hplaces := hderives.places
  rw [List.flatMap_singleton] at hplaces
  have hplace := hplaces.subset n.location_mem_places
  obtain ⟨t, ht, hlocation⟩ := List.mem_map.1 hplace
  exact ⟨t, ht, hlocation.symm⟩

theorem complains_memberVariables : Complains True memberVariables :=
  complains_items (complains_bind_keep (fun _ => complains_statement) deriving_statement.place_mem)

theorem complains_classDeclaration : Complains True classDeclaration := by
  refine complains_bind (complains_expect _) fun t => ?_
  refine complains_bind complains_identifier fun name => ?_
  refine complains_bind complains_baseClass fun base => ?_
  refine complains_bind (complains_expect _) fun _ => ?_
  refine complains_bind complains_memberVariables fun declarations => ?_
  refine complains_bind (complains_items (complains_map complains_method)) fun methods => ?_
  exact complains_bind (complains_expect _) fun _ => complains_pure _

/-! ## Programs -/

theorem complains_topItem : Complains True topItem := by
  refine complains_bind (complains_accept _) fun passed => ?_
  split
  · exact complains_pure _
  refine fun front => complainsAt_check_bind fun isClass => ?_
  split
  · refine complains_bind_kept complains_classDeclaration ?_ front
    exact deriving_classDeclaration.mono fun n s hn => hn.admits n (List.mem_singleton.2 rfl)
  · exact complains_bind_keep (fun _ => complains_statement) deriving_statement.place_mem front

theorem complains_program : Complains True program := by
  intro front finish ahead hwf hfront
  cases ahead with
  | nil => exact ⟨fun _ he => absurd he nofun, .complain ⟨rfl, rfl⟩ .nil⟩
  | cons t rest =>
      have hclasses : Complains True (recovering toStatement (some <$> mainClass) >>= fun first =>
          otherClasses >>= fun others =>
            (pure ⟨t.location, first.toList ++ others⟩ : Parse Program)) :=
        complains_bind (complains_recovering (complains_map complains_mainClass)) fun _ =>
          complains_bind (complains_items complains_topItem) fun _ => complains_pure _
      exact hclasses front hwf hfront

end MiniJava.Grammar
