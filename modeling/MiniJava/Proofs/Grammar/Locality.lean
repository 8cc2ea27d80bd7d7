import MiniJava.Grammar.Program
import MiniJava.Proofs.Production.Simulation
/-!
# Locality

Every production does alike on tokens that are alike up to one token past those it reads.
Productions with an operand or a statement inside do so over any two that do.
-/

namespace MiniJava.Grammar

open Parse Relocatable

variable {φ : Location → Location} {shift : Int} {operand operand' : Parse Node}

/-! ## Expressions -/

theorem simulates_climb (h : Simulates φ shift operand operand') {b b' : Int × Node}
    (hb : Alike φ b b') : Simulates φ shift (climb operand b) (climb operand' b') := by
  refine simulates_fix ?_ hb
  rintro self self' hself ⟨least, left⟩ ⟨least', left'⟩ hpair
  obtain ⟨hleast, hleft⟩ := Prod.mk.inj hpair
  obtain rfl : least = least' := hleast
  refine simulates_current_bind fun x l l' hl => ?_
  dsimp only
  split
  · exact simulates_pure hleft
  · refine simulates_advance_bind fun _ _ _ _ => ?_
    cases binaryOperator? x.terminal with
    | none => exact simulates_fail (alike_syntaxError hl _)
    | some operator =>
        refine simulates_bind h fun right right' hright => ?_
        have hjoin : ∀ r r', Alike φ r r' →
            Simulates φ shift (self (least, .binary operator left r l))
              (self' (least, .binary operator left' r' l')) := by
          intro r r' hr
          refine hself _ _ (congrArg (Prod.mk least) ?_)
          exact (move_binary φ).trans
            ((congr (congr (congrArg _ hleft) hr) hl).trans (move_binary φ).symm)
        refine simulates_current_bind fun y _ _ _ => ?_
        dsimp only
        split
        · exact simulates_bind (hself _ _ (congrArg (Prod.mk _) hright)) hjoin
        · exact simulates_bind (simulates_pure hright) hjoin

theorem simulates_expressionOf (h : Simulates φ shift operand operand') :
    Simulates φ shift (expressionOf operand) (expressionOf operand') :=
  simulates_bind h fun _ _ hleft => simulates_climb h (congrArg (Prod.mk _) hleft)

theorem simulates_arguments (h : Simulates φ shift operand operand') :
    Simulates φ shift (arguments operand) (arguments operand') := by
  refine simulates_bind (simulates_expect _) fun _ _ _ => ?_
  refine simulates_same_bind (fun _ => rfl) (simulates_accept _) fun done => ?_
  cases done with
  | true => exact simulates_pure rfl
  | false =>
      apply simulates_bind (simulates_commaSeparated (simulates_expressionOf h))
      exact fun _ _ hfound => simulates_bind (simulates_expect _) fun _ _ _ => simulates_pure hfound

theorem simulates_lengthCall : Simulates φ shift lengthCall lengthCall := by
  refine simulates_token_bind (simulates_expect _) fun x l l' hl => simulates_pure ?_
  rw [Alike, move_methodCall, move_methodCall, hl]

theorem simulates_bracketed (h : Simulates φ shift operand operand') {x : Lexeme}
    {l l' : Location} (hl : φ l = φ l') :
    Simulates φ shift (bracketed operand ⟨x, l⟩) (bracketed operand' ⟨x, l'⟩) := by
  refine simulates_same_bind (fun _ => rfl) (simulates_accept _) fun declares => ?_
  cases declares with
  | true =>
      refine simulates_same_bind (fun _ => rfl) simulates_identifier fun name => ?_
      exact simulates_pure (by rw [Alike, move_variableDeclaration, move_variableDeclaration, hl])
  | false =>
      refine simulates_bind (simulates_expressionOf h) fun index index' hindex => ?_
      refine simulates_bind (simulates_expect _) fun _ _ _ => simulates_pure ?_
      rw [Alike, move_reference, move_reference, move_some, move_some, hindex, hl]

theorem simulates_named (h : Simulates φ shift operand operand') :
    Simulates φ shift (named operand) (named operand') := by
  refine simulates_token_bind (simulates_expectKind _) fun x l l' hl => ?_
  refine simulates_current_bind fun y _ _ _ => ?_
  dsimp only
  split
  · refine simulates_advance_bind fun _ _ _ _ => simulates_pure ?_
    rw [Alike, move_variableDeclaration, move_variableDeclaration, hl]
  split
  · refine simulates_bind (simulates_arguments h) fun found found' hfound => simulates_pure ?_
    rw [Alike, move_methodCall, move_methodCall, hfound, hl]
  · refine simulates_same_bind (fun _ => rfl) (simulates_accept _) fun indexed => ?_
    cases indexed with
    | true => exact simulates_bracketed h hl
    | false => exact simulates_pure (by rw [Alike, move_reference, move_reference, hl])

theorem simulates_allocatedType : Simulates φ shift allocatedType allocatedType := by
  refine simulates_current_bind fun x l l' _ => ?_
  dsimp only
  split
  · exact simulates_advance
  · exact simulates_expectKind _

theorem simulates_allocation (h : Simulates φ shift operand operand') :
    Simulates φ shift (allocation operand) (allocation operand') := by
  refine simulates_token_bind (simulates_expect _) fun _ l l' hl => ?_
  refine simulates_token_bind simulates_allocatedType fun x m m' hm => ?_
  refine simulates_same_bind (fun _ => rfl) (simulates_accept _) fun isArray => ?_
  refine simulates_ite _ ?_ (simulates_ite _ (simulates_refuse _) ?_)
  · refine simulates_bind (simulates_expressionOf h) fun size size' hsize => ?_
    refine simulates_bind (simulates_expect _) fun _ _ _ => simulates_pure ?_
    rw [Alike, move_newArray, move_newArray, hsize, hl]
  · refine simulates_bind (simulates_arguments h) fun found found' hfound => simulates_pure ?_
    rw [Alike, move_newObject, move_newObject, move_methodCall, move_methodCall, hfound, hl, hm]

theorem simulates_literal : Simulates φ shift literal literal := by
  refine simulates_advance_bind fun x l l' hl => ?_
  have hvalue : literalValue? ⟨x, l'⟩ = literalValue? ⟨x, l⟩ := rfl
  rw [hvalue]
  cases literalValue? ⟨x, l⟩ with
  | none => exact simulates_fail (alike_syntaxError hl _)
  | some value => exact simulates_pure (by rw [Alike, move_literal, move_literal, hl])

theorem simulates_negation (h : Simulates φ shift operand operand') :
    Simulates φ shift (negation operand) (negation operand') := by
  refine simulates_token_bind (simulates_expect _) fun x l l' hl => ?_
  refine simulates_bind h fun negated negated' hnegated => simulates_pure ?_
  rw [Alike, move_unary, move_unary, hnegated, hl]

theorem simulates_parenthesised (h : Simulates φ shift operand operand') :
    Simulates φ shift (parenthesised operand) (parenthesised operand') := by
  refine simulates_bind (simulates_expect _) fun _ _ _ => ?_
  refine simulates_bind (simulates_expressionOf h) fun _ _ hinner => ?_
  exact simulates_bind (simulates_expect _) fun _ _ _ => simulates_pure hinner

theorem simulates_keywordPrimary (h : Simulates φ shift operand operand') {x : Lexeme}
    {l l' : Location} (hl : φ l = φ l') :
    Simulates φ shift (keywordPrimary operand ⟨x, l⟩) (keywordPrimary operand' ⟨x, l'⟩) := by
  have hfail : Simulates φ shift (fail ⟨l, .unsupported (.inExpression x)⟩ : Parse Node)
      (fail ⟨l', .unsupported (.inExpression x)⟩) :=
    simulates_fail (alike_syntaxError hl _)
  unfold keywordPrimary
  dsimp only
  cases x.terminal with
  | thisKeyword =>
      refine simulates_advance_bind fun _ _ _ _ => simulates_pure ?_
      rw [Alike, move_reference, move_reference, hl]
  | newKeyword => exact simulates_allocation h
  | lengthKeyword => exact simulates_lengthCall
  | _ => exact hfail

theorem simulates_primary (h : Simulates φ shift operand operand') :
    Simulates φ shift (primary operand) (primary operand') := by
  refine simulates_current_bind fun x l l' hl => ?_
  have hfail : ∀ c, Simulates φ shift (fail ⟨l, c⟩ : Parse Node) (fail ⟨l', c⟩) :=
    fun c => simulates_fail (alike_syntaxError hl c)
  dsimp only
  cases x.kind with
  | identifier => exact simulates_named h
  | keyword => exact simulates_keywordPrimary h hl
  | operator =>
      dsimp only
      split
      · exact simulates_negation h
      · exact hfail _
  | delimiter =>
      dsimp only
      split
      · exact simulates_parenthesised h
      · exact hfail _
  | dataType => exact hfail _
  | endOfFile => exact hfail _
  | unknown => exact hfail _
  | _ => exact simulates_literal

theorem simulates_memberName (h : Simulates φ shift operand operand') :
    Simulates φ shift (memberName operand) (memberName operand') := by
  refine simulates_current_bind fun x _ _ _ => ?_
  dsimp only
  split
  · exact simulates_lengthCall
  split
  · exact simulates_named h
  · exact simulates_refuse _

theorem simulates_members (h : Simulates φ shift operand operand') {left left' : Node}
    (hleft : Alike φ left left') :
    Simulates φ shift (members operand left) (members operand' left') := by
  refine simulates_fix (fun self self' hself left left' hleft => ?_) hleft
  refine simulates_current_bind fun x l l' hl => ?_
  dsimp only
  split
  · refine simulates_advance_bind fun _ _ _ _ => ?_
    refine simulates_bind (simulates_memberName h) fun member member' hmember => ?_
    apply hself _ _
    rw [Alike, move_binary, move_binary, hleft, hmember, hl]
  · exact simulates_pure hleft

theorem simulates_operand : Simulates φ shift Grammar.operand Grammar.operand := by
  refine simulates_fix (γ := Unit) (fun self self' hself _ _ _ => ?_) rfl
  exact simulates_bind (simulates_primary (hself () () rfl)) fun _ _ hleft =>
    simulates_members (hself () () rfl) hleft

theorem simulates_expression : Simulates φ shift expression expression :=
  simulates_expressionOf simulates_operand

/-! ## Statements -/

theorem simulates_typeName : Simulates φ shift typeName typeName := by
  refine simulates_current_bind fun x _ _ _ => ?_
  dsimp only
  split
  · refine simulates_advance_bind fun _ _ _ _ => ?_
    refine simulates_same_bind (fun _ => rfl) (simulates_accept _) fun isArray => ?_
    cases isArray with
    | true => exact simulates_bind (simulates_expect _) fun _ _ _ => simulates_pure rfl
    | false => exact simulates_pure rfl
  · exact simulates_refuse _

theorem simulates_declaration : Simulates φ shift declaration declaration := by
  refine simulates_current_bind fun _ l l' hl => ?_
  refine simulates_same_bind (fun _ => rfl) simulates_typeName fun type => ?_
  refine simulates_same_bind (fun _ => rfl) simulates_identifier fun name => simulates_pure ?_
  rw [Alike, move_variableDeclaration, move_variableDeclaration, hl]

theorem simulates_declarationStatement :
    Simulates φ shift declarationStatement declarationStatement := by
  refine simulates_bind simulates_declaration fun _ _ hdeclared => ?_
  exact simulates_bind (simulates_expect _) fun _ _ _ => simulates_pure hdeclared

theorem simulates_condition : Simulates φ shift condition condition :=
  simulates_parenthesised simulates_operand

theorem simulates_clause (terminator : Terminal) :
    Simulates φ shift (clause terminator) (clause terminator) := by
  refine simulates_check_bind fun absent => ?_
  cases absent with
  | true => exact simulates_pure rfl
  | false => exact simulates_map simulates_expression fun _ _ h => congrArg some h

section

variable {statement statement' : Parse Node}

theorem simulates_ifStatement (h : Simulates φ shift statement statement') :
    Simulates φ shift (ifStatement statement) (ifStatement statement') := by
  refine simulates_token_bind (simulates_expect _) fun _ l l' hl => ?_
  refine simulates_bind simulates_condition fun tested tested' htested => ?_
  refine simulates_bind h fun first first' hfirst => ?_
  refine simulates_same_bind (fun _ => rfl) (simulates_accept _) fun hasElse => ?_
  cases hasElse with
  | true =>
      refine simulates_bind h fun second second' hsecond => simulates_pure ?_
      rw [Alike, move_ifStatement, move_ifStatement, move_some, move_some, htested, hfirst,
        hsecond, hl]
  | false =>
      apply simulates_pure
      rw [Alike, move_ifStatement, move_ifStatement, htested, hfirst, hl]

theorem simulates_whileStatement (h : Simulates φ shift statement statement') :
    Simulates φ shift (whileStatement statement) (whileStatement statement') := by
  refine simulates_token_bind (simulates_expect _) fun _ l l' hl => ?_
  refine simulates_bind simulates_condition fun tested tested' htested => ?_
  refine simulates_bind h fun body body' hbody => simulates_pure ?_
  rw [Alike, move_whileStatement, move_whileStatement, htested, hbody, hl]

theorem simulates_forStatement (h : Simulates φ shift statement statement') :
    Simulates φ shift (forStatement statement) (forStatement statement') := by
  refine simulates_token_bind (simulates_expect _) fun _ l l' hl => ?_
  refine simulates_bind (simulates_expect _) fun _ _ _ => ?_
  refine simulates_bind (simulates_clause _) fun first first' hfirst => ?_
  refine simulates_bind (simulates_expect _) fun _ _ _ => ?_
  refine simulates_bind (simulates_clause _) fun tested tested' htested => ?_
  refine simulates_bind (simulates_expect _) fun _ _ _ => ?_
  refine simulates_bind (simulates_clause _) fun update update' hupdate => ?_
  refine simulates_bind (simulates_expect _) fun _ _ _ => ?_
  refine simulates_bind h fun body body' hbody => simulates_pure ?_
  rw [Alike, move_forStatement, move_forStatement, hfirst, htested, hupdate, hbody, hl]

theorem simulates_printStatement : Simulates φ shift printStatement printStatement := by
  refine simulates_token_bind (simulates_expect _) fun _ l l' hl => ?_
  refine simulates_bind simulates_condition fun value value' hvalue => ?_
  refine simulates_bind (simulates_expect _) fun _ _ _ => simulates_pure ?_
  rw [Alike, move_printStatement, move_printStatement, hvalue, hl]

theorem simulates_returnStatement : Simulates φ shift returnStatement returnStatement := by
  refine simulates_token_bind (simulates_expect _) fun _ l l' hl => ?_
  refine simulates_bind simulates_expression fun value value' hvalue => ?_
  refine simulates_bind (simulates_expect _) fun _ _ _ => simulates_pure ?_
  rw [Alike, move_returnStatement, move_returnStatement, hvalue, hl]

theorem simulates_some {p p' : Parse Node} (h : Simulates φ shift p p') :
    Simulates φ shift (some <$> p) (some <$> p') :=
  simulates_map h fun _ _ hnode => congrArg some hnode

theorem simulates_block (h : Simulates φ shift statement statement') :
    Simulates φ shift (block statement) (block statement') := by
  refine simulates_token_bind (simulates_expect _) fun _ l l' hl => ?_
  refine simulates_bind
    (simulates_items (fun _ _ _ => rfl) simulates_toStatement (simulates_some h)) ?_
  intro found found' hfound
  refine simulates_bind (simulates_expect _) fun _ _ _ => simulates_pure ?_
  rw [Alike, move_block, move_block, hfound, hl]

theorem simulates_expressionStatement :
    Simulates φ shift expressionStatement expressionStatement := by
  refine simulates_bind simulates_expression fun _ _ hfound => ?_
  exact simulates_bind (simulates_accept _) fun _ _ _ => simulates_pure hfound

end

theorem simulates_statement : Simulates φ shift statement statement := by
  refine simulates_fix (γ := Unit) (fun self self' hself _ _ _ => ?_) rfl
  have hself := hself () () rfl
  refine simulates_current_bind fun x _ _ _ => ?_
  have hrest : Simulates φ shift
      (if x.kind = .dataType then declarationStatement else expressionStatement)
      (if x.kind = .dataType then declarationStatement else expressionStatement) := by
    split
    · exact simulates_declarationStatement
    · exact simulates_expressionStatement
  dsimp only
  cases x.terminal with
  | ifKeyword => exact simulates_ifStatement hself
  | whileKeyword => exact simulates_whileStatement hself
  | forKeyword => exact simulates_forStatement hself
  | printKeyword => exact simulates_printStatement
  | returnKeyword => exact simulates_returnStatement
  | leftBrace => exact simulates_block hself
  | _ => exact hrest

/-! ## Declarations -/

theorem simulates_bodyReturn : Simulates φ shift bodyReturn bodyReturn := by
  refine simulates_check_bind fun present => ?_
  cases present with
  | true =>
      exact simulates_recovering simulates_toStatement (simulates_some simulates_returnStatement)
  | false =>
      refine simulates_bind (α := SyntaxError) ?_ fun _ _ he => ?_
      · exact simulates_current_bind fun x l l' hl => simulates_pure (alike_syntaxError hl _)
      · exact simulates_bind (simulates_report he) fun _ _ _ => simulates_pure rfl

theorem move_takeWhile (ns : List Node) :
    move φ (ns.takeWhile Node.isVariableDeclaration) =
      (move φ ns).takeWhile Node.isVariableDeclaration := by
  have hkind : Node.isVariableDeclaration ∘ Node.relocate φ = Node.isVariableDeclaration :=
    funext (Node.isVariableDeclaration_relocate φ)
  show _ = (ns.map (Node.relocate φ)).takeWhile Node.isVariableDeclaration
  rw [List.takeWhile_map, hkind]
  rfl

theorem move_dropWhile (ns : List Node) :
    move φ (ns.dropWhile Node.isVariableDeclaration) =
      (move φ ns).dropWhile Node.isVariableDeclaration := by
  have hkind : Node.isVariableDeclaration ∘ Node.relocate φ = Node.isVariableDeclaration :=
    funext (Node.isVariableDeclaration_relocate φ)
  show _ = (ns.map (Node.relocate φ)).dropWhile Node.isVariableDeclaration
  rw [List.dropWhile_map, hkind]
  rfl

theorem simulates_methodBody (needsReturn : Bool) :
    Simulates φ shift (methodBody needsReturn) (methodBody needsReturn) := by
  refine simulates_token_bind (simulates_expect _) fun _ l l' hl => ?_
  refine simulates_bind (simulates_items (fun _ _ _ => rfl) simulates_toStatement
    (simulates_some simulates_statement)) fun found found' hfound => ?_
  have hdone : ∀ returned returned' : Option Node, Alike φ returned returned' →
      Simulates φ shift
        (expect .rightBrace >>= fun _ => pure (Node.methodBody
          (found.takeWhile Node.isVariableDeclaration)
          (found.dropWhile Node.isVariableDeclaration) returned l))
        (expect .rightBrace >>= fun _ => pure (Node.methodBody
          (found'.takeWhile Node.isVariableDeclaration)
          (found'.dropWhile Node.isVariableDeclaration) returned' l')) := by
    intro returned returned' hreturned
    refine simulates_bind (simulates_expect _) fun _ _ _ => simulates_pure ?_
    rw [Alike, move_methodBody, move_methodBody, move_takeWhile, move_takeWhile, move_dropWhile,
      move_dropWhile, hfound, hreturned, hl]
  cases needsReturn with
  | true => exact simulates_bind simulates_bodyReturn hdone
  | false => exact simulates_bind (simulates_pure rfl) hdone

theorem simulates_mainMethod : Simulates φ shift mainMethod mainMethod := by
  refine simulates_token_bind (simulates_expect _) fun _ l l' hl => ?_
  refine simulates_bind (simulates_expect _) fun _ _ _ => ?_
  refine simulates_bind (simulates_expect _) fun _ _ _ => ?_
  refine simulates_bind (simulates_expect _) fun _ _ _ => ?_
  refine simulates_bind (simulates_expect _) fun _ _ _ => ?_
  refine simulates_token_bind (simulates_expect _) fun _ m m' hm => ?_
  refine simulates_bind (simulates_expect _) fun _ _ _ => ?_
  refine simulates_bind (simulates_expect _) fun _ _ _ => ?_
  refine simulates_same_bind (fun _ => rfl) simulates_identifier fun name => ?_
  refine simulates_bind (simulates_expect _) fun _ _ _ => ?_
  refine simulates_bind (simulates_methodBody false) fun body body' hbody => simulates_pure ?_
  rw [Alike, move_methodDeclaration, move_methodDeclaration, move_cons, move_cons,
    move_variableDeclaration, move_variableDeclaration, hm, hbody, hl]

theorem simulates_mainClass : Simulates φ shift mainClass mainClass := by
  refine simulates_token_bind (simulates_expect _) fun _ l l' hl => ?_
  refine simulates_same_bind (fun _ => rfl) simulates_identifier fun name => ?_
  refine simulates_bind (simulates_expect _) fun _ _ _ => ?_
  refine simulates_bind simulates_mainMethod fun method method' hmethod => ?_
  refine simulates_bind (simulates_expect _) fun _ _ _ => simulates_pure ?_
  rw [Alike, move_mainClass, move_mainClass, hmethod, hl]

theorem simulates_attributes : Simulates φ shift attributes attributes := by
  refine simulates_fix (γ := Unit) (fun self self' hself _ _ _ => ?_) rfl
  refine simulates_current_bind fun x l l' _ => ?_
  refine simulates_ite _ ?_ (simulates_pure rfl)
  refine simulates_advance_bind fun _ _ _ _ => ?_
  refine simulates_map (hself () () rfl) fun others others' hothers => ?_
  rw [Alike, move_cons, move_cons, hothers]

theorem simulates_returnType : Simulates φ shift returnType returnType := by
  refine simulates_same_bind (fun _ => rfl) (simulates_accept _) fun isVoid => ?_
  exact simulates_ite _ (simulates_pure rfl) simulates_typeName

theorem simulates_methodName : Simulates φ shift methodName methodName := by
  refine simulates_same_bind (fun _ => rfl) (simulates_accept _) fun isMain => ?_
  exact simulates_ite _ (simulates_pure rfl) simulates_identifier

theorem simulates_parameters : Simulates φ shift parameters parameters := by
  refine simulates_bind (simulates_expect _) fun _ _ _ => ?_
  refine simulates_same_bind (fun _ => rfl) (simulates_accept _) fun done => ?_
  apply simulates_ite _ (simulates_pure rfl)
  refine simulates_bind (simulates_commaSeparated simulates_declaration) fun _ _ hfound => ?_
  exact simulates_bind (simulates_expect _) fun _ _ _ => simulates_pure hfound

theorem simulates_method : Simulates φ shift method method := by
  refine simulates_token_bind (simulates_expect _) fun _ l l' hl => ?_
  refine simulates_same_bind (move_strings φ) simulates_attributes fun others => ?_
  refine simulates_same_bind (fun _ => rfl) simulates_returnType fun type => ?_
  refine simulates_same_bind (fun _ => rfl) simulates_methodName fun name => ?_
  refine simulates_bind simulates_parameters fun found found' hfound => ?_
  refine simulates_bind (simulates_methodBody true) fun body body' hbody => simulates_pure ?_
  rw [Alike, move_methodDeclaration, move_methodDeclaration, hfound, hbody, hl]

theorem simulates_baseClass : Simulates φ shift baseClass baseClass := by
  refine simulates_same_bind (fun _ => rfl) (simulates_accept _) fun hasBase => ?_
  refine simulates_ite _ ?_ (simulates_pure rfl)
  exact simulates_map simulates_identifier fun _ _ hname => congrArg some hname

theorem simulates_memberVariables : Simulates φ shift memberVariables memberVariables := by
  refine simulates_items (fun _ _ _ => rfl) simulates_toStatement ?_
  exact simulates_bind simulates_statement fun _ _ hfound => simulates_keep hfound

theorem simulates_memberMethods : Simulates φ shift memberMethods memberMethods :=
  simulates_items (fun _ _ _ => rfl) simulates_toMember (simulates_some simulates_method)

theorem simulates_classDeclaration : Simulates φ shift classDeclaration classDeclaration := by
  refine simulates_token_bind (simulates_expect _) fun _ l l' hl => ?_
  refine simulates_same_bind (fun _ => rfl) simulates_identifier fun name => ?_
  refine simulates_same_bind (fun base => ?_) simulates_baseClass fun base => ?_
  · cases base <;> rfl
  refine simulates_bind (simulates_expect _) fun _ _ _ => ?_
  refine simulates_bind simulates_memberVariables fun fields fields' hfields => ?_
  refine simulates_bind simulates_memberMethods fun methods methods' hmethods => ?_
  refine simulates_bind (simulates_expect _) fun _ _ _ => simulates_pure ?_
  rw [Alike, move_classDeclaration, move_classDeclaration, hfields, hmethods, hl]

/-! ## Programs -/

theorem simulates_topItem : Simulates φ shift topItem topItem := by
  refine simulates_same_bind (fun _ => rfl) (simulates_accept _) fun passed => ?_
  apply simulates_ite _ (simulates_pure rfl)
  refine simulates_check_bind fun isClass => ?_
  cases isClass with
  | true => exact simulates_bind simulates_classDeclaration fun _ _ hfound => simulates_keep hfound
  | false => exact simulates_bind simulates_statement fun _ _ hfound => simulates_keep hfound

theorem simulates_otherClasses : Simulates φ shift otherClasses otherClasses :=
  simulates_items (fun _ _ _ => rfl) simulates_toStatement simulates_topItem

theorem simulates_program : Simulates φ shift program program := by
  refine simulates_current_bind fun _ l l' hl => simulates_atEnd_bind fun empty => ?_
  cases empty with
  | true =>
      refine simulates_bind (simulates_report (alike_syntaxError hl _)) fun _ _ _ => ?_
      exact simulates_pure (by rw [Alike, move_program, move_program, hl])
  | false =>
      refine simulates_bind (simulates_recovering simulates_toStatement
        (simulates_some simulates_mainClass)) fun first first' hfirst => ?_
      refine simulates_bind simulates_otherClasses fun others others' hothers => ?_
      apply simulates_pure
      rw [Alike, move_program, move_program, move_append, move_append, move_toList, move_toList,
        hfirst, hothers, hl]

end MiniJava.Grammar
