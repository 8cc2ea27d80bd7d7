import MiniJava.Proofs.Grammar.Source
import MiniJava.Proofs.Production.Derivation
/-!
# Derivations of the grammar

Every production that yields a value has derived it, whatever was skipped and reported on the
way.  So has the parse of a source, from all of its tokens.
-/

namespace MiniJava.Grammar

open Parse

/-- A production of single nodes derives what it yields. -/
abbrev Deriving (c : Category) (p : Parse Node) : Prop := Ensures p fun n s => Derives c [n] s

abbrev DerivingAll (c : Category) (p : Parse (List Node)) : Prop := Ensures p (Derives c)

abbrev DerivingOption (c : Category) (p : Parse (Option Node)) : Prop :=
  Ensures p fun found s => Derives c found.toList s

section

variable {operand : Parse Node} {t : Token}

theorem deriving_some {c : Category} {p : Parse Node} (h : Deriving c p) :
    DerivingOption c (some <$> p) := ensures_map h

theorem deriving_commaSeparated {c : Category} {item : Parse Node} (h : Deriving c item) :
    DerivingAll c (commaSeparated item) := by
  refine ensures_commaSeparated (Derives c) h (fun _ _ ha => ha) ?_
  exact fun a s t as u ha has => ha.append (has.after [_])

/-! ## Expressions -/

theorem deriving_climb (h : Deriving .expression operand) (b : Int × Node) :
    Ensures (climb operand b) fun n u =>
      ∀ s, Derives .expression [b.2] s → Derives .expression [n] (s ++ u) := by
  refine ensures_fix (fun b n u =>
    ∀ s, Derives .expression [b.2] s → Derives .expression [n] (s ++ u)) ?_ b
  rintro self hself ⟨least, left⟩
  refine ensures_current_bind fun t => ?_
  split
  · refine ensures_pure (fun s hleft => ?_) t
    rwa [List.append_nil]
  · next hgo =>
    refine ensuresAt_advance_bind ?_ ?_
    · rintro l rfl
      exact hgo (.inr (show (-1 : Int) < 0 by decide))
    split
    · exact ensures_fail
    · next op hop =>
      have hop : op ≠ .member := by
        rintro rfl
        revert hop
        cases t.terminal <;> simp [binaryOperator?]
      refine ensures_bind h fun first u₁ hfirst => ensures_current_bind fun next => ?_
      -- With its right side complete, the operator and its sides are the next left side.
      have hcontinue : ∀ right : Parse Node,
          Ensures right (fun n u₂ => Derives .expression [n] (u₁ ++ u₂)) →
          Ensures (right >>= fun n => self (least, .binary op left n t.location)) fun n u =>
            ∀ s, Derives .expression [left] s →
              Derives .expression [n] (s ++ .read t :: (u₁ ++ u)) := by
        intro right hright
        refine ensures_bind hright fun n u₂ hn => (hself _).mono fun m u hm s hleft => ?_
        have hresult := hm _ (.binary (t := t) hop hleft hn)
        simpa using hresult
      split
      · refine hcontinue _ ((hself _).mono fun n u₂ hn => ?_) next
        exact hn u₁ hfirst
      · refine hcontinue _ (ensures_pure ?_) next
        rwa [List.append_nil]

theorem deriving_expressionOf (h : Deriving .expression operand) :
    Deriving .expression (expressionOf operand) :=
  ensures_bind h fun _ s hleft => (deriving_climb h _).mono fun _ _ hn => hn s hleft

theorem deriving_arguments (h : Deriving .expression operand) :
    DerivingAll .expression (arguments operand) := by
  refine ensures_expect_bind (by decide) fun opening _ => ensures_accept_bind (by decide) ?_ ?_
  · exact fun _ _ => ensures_pure (.skip _)
  · refine ensures_bind (deriving_commaSeparated (deriving_expressionOf h)) fun ns s hns => ?_
    refine ensures_expect_bind (by decide) fun closing _ => ensures_pure ?_
    exact (hns.andThen _).after [_]

theorem deriving_lengthCall : Deriving .member lengthCall :=
  ensures_expect_bind (by decide) fun _ _ => ensures_pure (.call (.skip []))

theorem deriving_bracketed (h : Deriving .expression operand) {name opening : Token}
    (hname : name.kind = .identifier) (hopening : opening.terminal = .leftBracket) :
    Ensures (bracketed operand name) fun n s =>
      Derives .member [n] (.read name :: .read opening :: s) := by
  refine ensures_accept_bind (by decide) ?_ ?_
  · intro closing hclosing
    refine ensures_identifier_bind fun u hu => ensures_pure ?_
    exact .declaredArray hname hopening hclosing hu
  · refine ensures_bind (deriving_expressionOf h) fun index s hindex => ?_
    refine ensures_expect_bind (by decide) fun closing _ => ensures_pure ?_
    exact .reference (show Derives .expression (some index).toList _ from
      (hindex.andThen _).after [_])

theorem deriving_named (h : Deriving .expression operand) : Deriving .member (named operand) := by
  refine ensures_expectKind_bind (by decide) fun name hname => ensures_current_bind fun t => ?_
  split
  · next ht =>
    refine ensuresAt_advance_bind ?_ (ensures_pure (.declared hname ht))
    rintro l rfl
    exact absurd ht (show TokenKind.endOfFile ≠ .identifier by decide)
  split
  · refine ensures_bind (deriving_arguments h) (fun ns s hns => ensures_pure ?_) t
    exact .call (hns.andThen _)
  · refine ensures_accept_bind (by decide) ?_ ?_ t
    · exact fun opening hopening => deriving_bracketed h hname hopening
    · exact ensures_pure .bareReference

theorem deriving_allocation (h : Deriving .expression operand) :
    Deriving .expression (allocation operand) := by
  have htype : Ensures allocatedType fun u s => s = [.read u] := by
    refine ensures_current_bind fun u => ?_
    split
    · next hu =>
      refine ensuresAt_advance ?_ rfl
      rintro l rfl
      exact absurd hu (show TokenKind.endOfFile ≠ .dataType by decide)
    · exact (ensures_expectKind (by decide)).mono (fun _ _ hu => hu.2) u
  refine ensures_expect_bind (by decide) fun start _ => ensures_bind htype ?_
  rintro type _ rfl
  refine ensures_accept_bind (by decide) ?_ ?_
  · intro opening _
    refine ensures_bind (deriving_expressionOf h) fun length s hlength => ?_
    refine ensures_expect_bind (by decide) fun closing _ => ensures_pure ?_
    exact .array ((hlength.andThen _).after [_, _])
  · rw [if_neg Bool.false_ne_true]
    split
    · exact ensures_refuse
    · refine ensures_bind (deriving_arguments h) fun ns s hns => ensures_pure ?_
      exact .object (hns.andThen _)

theorem deriving_literal (ht : ∀ l, t ≠ .endOfFile l) :
    EnsuresAt t literal fun n s => Derives .expression [n] s := by
  refine ensuresAt_advance_bind ht ?_
  split
  · next value hvalue => exact ensures_pure (.literal hvalue)
  · exact ensures_fail

theorem deriving_keywordPrimary (h : Deriving .expression operand) (ht : ∀ l, t ≠ .endOfFile l) :
    EnsuresAt t (keywordPrimary operand t) fun n s => Derives .expression [n] s := by
  unfold keywordPrimary
  split
  · refine ensuresAt_advance_bind ht (ensures_pure ?_)
    exact .primary .bareReference
  · exact deriving_allocation h t
  · exact deriving_lengthCall.mono (fun _ _ => .primary) t
  · exact ensures_fail t

theorem deriving_primary (h : Deriving .expression operand) :
    Deriving .expression (primary operand) := by
  refine ensures_current_bind fun t => ?_
  have hfront : t.kind ≠ .endOfFile → ∀ l, t ≠ .endOfFile l := by
    rintro ht l rfl
    exact ht rfl
  have hliteral : t.kind ≠ .endOfFile →
      EnsuresAt t literal fun n s => Derives .expression [n] s :=
    fun ht => deriving_literal (hfront ht)
  split
  · next ht => exact hliteral (by rw [ht]; decide)
  · next ht => exact hliteral (by rw [ht]; decide)
  · next ht => exact hliteral (by rw [ht]; decide)
  · next ht => exact hliteral (by rw [ht]; decide)
  · next ht => exact hliteral (by rw [ht]; decide)
  · exact (deriving_named h).mono (fun _ _ => .primary) t
  · next ht => exact deriving_keywordPrimary h (hfront (by rw [ht]; decide))
  · split
    · refine ensures_expect_bind (by decide) (fun _ _ => ?_) t
      refine ensures_bind h fun n s hn => ensures_pure ?_
      exact .unary (hn.andThen _)
    · exact ensures_fail t
  · split
    · refine ensures_expect_bind (by decide) (fun _ _ => ?_) t
      refine ensures_bind (deriving_expressionOf h) fun n s hn => ?_
      refine ensures_expect_bind (by decide) fun closing _ => ensures_pure ?_
      exact (hn.andThen _).after [_]
    · exact ensures_fail t
  · exact ensures_fail t
  · exact ensures_fail t
  · exact ensures_fail t

theorem deriving_memberName (h : Deriving .expression operand) :
    Deriving .member (memberName operand) := by
  refine ensures_current_bind fun t => ?_
  split
  · exact deriving_lengthCall t
  split
  · exact deriving_named h t
  · exact ensures_refuse t

theorem deriving_members (h : Deriving .expression operand) (left : Node) :
    Ensures (members operand left) fun n u =>
      ∀ s, Derives .expression [left] s → Derives .expression [n] (s ++ u) := by
  refine ensures_fix (fun left n u =>
    ∀ s, Derives .expression [left] s → Derives .expression [n] (s ++ u)) ?_ left
  intro self hself left
  refine ensures_current_bind fun t => ?_
  split
  · next ht =>
    refine ensuresAt_advance_bind ?_ ?_
    · rintro l rfl
      exact absurd ht (show Terminal.unreserved ≠ .dot by decide)
    refine ensures_bind (deriving_memberName h) fun member u₁ hmember => ?_
    refine (hself _).mono fun n u hn s hleft => ?_
    have hresult := hn _ (.access (t := t) hleft hmember)
    simpa using hresult
  · refine ensures_pure (fun s hleft => ?_) t
    rwa [List.append_nil]

theorem deriving_operand : Deriving .expression Grammar.operand := by
  refine ensures_fix (fun _ n s => Derives .expression [n] s) (fun self hself _ => ?_) ()
  refine ensures_bind (deriving_primary (hself ())) fun left s hleft => ?_
  exact (deriving_members (hself ()) left).mono fun n u hn => hn s hleft

theorem deriving_expression : Deriving .expression expression :=
  deriving_expressionOf deriving_operand

end

/-! ## Statements -/

theorem ensuresAt_typeName (t : Token) : EnsuresAt t typeName fun _ s => ∃ u, s = .read t :: u := by
  refine ensuresAt_current_bind ?_
  split
  · next ht =>
    refine ensuresAt_advance_bind ?_ ?_
    · rintro l rfl
      exact absurd ht (show ¬ (TokenKind.endOfFile = .dataType ∨
        TokenKind.endOfFile = .identifier) by decide)
    refine ensures_accept_bind (by decide) ?_ ?_
    · intro opening _
      exact ensures_expect_bind (by decide) fun closing _ => ensures_pure ⟨_, rfl⟩
    · exact ensures_pure ⟨_, rfl⟩
  · exact ensures_refuse t

theorem deriving_declaration : Deriving .declaration declaration := by
  refine ensures_current_bind fun t => ensuresAt_bind (ensuresAt_typeName t) ?_
  rintro type _ ⟨s, rfl⟩
  exact ensures_identifier_bind fun name _ => ensures_pure .declaration

theorem deriving_declarationStatement : Deriving .statement declarationStatement := by
  refine ensures_bind deriving_declaration fun n s hn => ?_
  refine ensures_expect_bind (by decide) fun _ _ => ensures_pure ?_
  exact .declarationStatement (hn.andThen _)

theorem deriving_condition : Deriving .expression condition := by
  refine ensures_expect_bind (by decide) fun opening _ => ?_
  refine ensures_bind deriving_expression fun n s hn => ?_
  refine ensures_expect_bind (by decide) fun closing _ => ensures_pure ?_
  exact (hn.andThen _).after [_]

theorem deriving_clause (terminator : Terminal) :
    DerivingOption .expression (clause terminator) := by
  intro front
  refine ensuresAt_check_bind (fun _ => ensures_pure (.skip _) front) fun _ => ?_
  rw [if_neg Bool.false_ne_true]
  exact deriving_some deriving_expression front

theorem deriving_printStatement : Deriving .statement printStatement := by
  refine ensures_expect_bind (by decide) fun t _ => ?_
  refine ensures_bind deriving_condition fun value s hvalue => ?_
  refine ensures_expect_bind (by decide) fun _ _ => ensures_pure ?_
  exact .printStatement (hvalue.andThen _)

theorem deriving_returnStatement :
    Ensures returnStatement fun n s => Derives .statement [n] s ∧ n.isReturn = true := by
  refine ensures_expect_bind (by decide) fun t _ => ?_
  refine ensures_bind deriving_expression fun value s hvalue => ?_
  refine ensures_expect_bind (by decide) fun _ _ => ensures_pure ?_
  exact ⟨.returnStatement (hvalue.andThen _), rfl⟩

theorem deriving_expressionStatement : Deriving .statement expressionStatement := by
  refine ensures_bind deriving_expression fun n s hn => ?_
  refine ensures_accept_bind (by decide) ?_ ?_
  · exact fun _ _ => ensures_pure (.expressionStatement (hn.andThen _))
  · exact ensures_pure (.expressionStatement (hn.andThen _))

/-- A list derives its items, in the order in which they were read. -/
theorem deriving_items {c : Category} {stops : Token → Bool} {count : List Token → Nat}
    {item : Parse (Option Node)} (h : DerivingOption c item) :
    DerivingAll c (items stops count item) :=
  ensures_items (Derives c) (fun t _ => h t) (fun _ _ _ => .skip _) (.skip [])
    fun _ _ _ _ hfound hothers => hfound.append hothers

section

variable {statement : Parse Node}

theorem deriving_ifStatement (h : Deriving .statement statement) :
    Deriving .statement (ifStatement statement) := by
  refine ensures_expect_bind (by decide) fun t _ => ?_
  refine ensures_bind deriving_condition fun tested s htested => ?_
  refine ensures_bind h fun thenBranch u hthen => ensures_accept_bind (by decide) ?_ ?_
  · intro middle _
    refine ensures_bind h fun elseBranch v helse => ensures_pure ?_
    exact .ifStatement htested (show Derives .statement (thenBranch :: (some elseBranch).toList) _
      from hthen.append ((helse.andThen _).after [_]))
  · exact ensures_pure (.ifStatement htested
      (show Derives .statement (thenBranch :: (none : Option Node).toList) _ from hthen.andThen _))

theorem deriving_whileStatement (h : Deriving .statement statement) :
    Deriving .statement (whileStatement statement) := by
  refine ensures_expect_bind (by decide) fun t _ => ?_
  refine ensures_bind deriving_condition fun tested s htested => ?_
  refine ensures_bind h fun body u hbody => ensures_pure ?_
  exact .whileStatement htested (hbody.andThen _)

theorem deriving_forStatement (h : Deriving .statement statement) :
    Deriving .statement (forStatement statement) := by
  refine ensures_expect_bind (by decide) fun t _ => ?_
  refine ensures_expect_bind (by decide) fun opening _ => ?_
  refine ensures_bind (deriving_clause _) fun first s hfirst => ?_
  refine ensures_expect_bind (by decide) fun semicolon _ => ?_
  refine ensures_bind (deriving_clause _) fun tested u htested => ?_
  refine ensures_expect_bind (by decide) fun semicolon' _ => ?_
  refine ensures_bind (deriving_clause _) fun update v hupdate => ?_
  refine ensures_expect_bind (by decide) fun closing _ => ?_
  refine ensures_bind h fun body w hbody => ensures_pure ?_
  have hclauses := ((hfirst.andThen [.read semicolon]).append
    ((htested.andThen [.read semicolon']).append (hupdate.andThen [.read closing]))).after
      [.read opening]
  rw [← List.append_assoc first.toList] at hclauses
  have hresult := Derives.forStatement (t := t) hclauses (hbody.andThen [])
  simpa using hresult

theorem deriving_block (h : Deriving .statement statement) :
    Deriving .statement (block statement) := by
  refine ensures_expect_bind (by decide) fun t _ => ?_
  refine ensures_bind (deriving_items (deriving_some h)) fun ns s hns => ?_
  refine ensures_expect_bind (by decide) fun closing _ => ensures_pure ?_
  exact .block (hns.andThen _)

theorem deriving_statementOf (h : Deriving .statement statement) :
    Deriving .statement (statementOf statement) := by
  refine ensures_current_bind fun t => ?_
  split
  · exact deriving_ifStatement h t
  · exact deriving_whileStatement h t
  · exact deriving_forStatement h t
  · exact deriving_printStatement t
  · exact deriving_returnStatement.mono (fun _ _ hn => hn.1) t
  · exact deriving_block h t
  · split
    · exact deriving_declarationStatement t
    · exact deriving_expressionStatement t

end

theorem deriving_statement : Deriving .statement statement :=
  ensures_fix (fun _ n s => Derives .statement [n] s)
    (fun _ hself _ => deriving_statementOf (hself ())) ()

/-! ## Bodies and methods -/

theorem ensuresAt_statement_isReturn {t : Token} (ht : t.terminal ≠ .returnKeyword) :
    EnsuresAt t statement fun n _ => n.isReturn = false := by
  refine ensuresAt_fix fun self => ensuresAt_current_bind ?_
  have hcondition := ensures_any condition
  have hself := ensures_any (self ())
  split
  · refine ensures_expect_bind (by decide) (fun _ _ => ?_) t
    refine ensures_bind hcondition fun _ _ _ => ensures_bind hself fun _ _ _ => ?_
    refine ensures_accept_bind (by decide) ?_ (ensures_pure rfl)
    exact fun _ _ => ensures_bind hself fun _ _ _ => ensures_pure rfl
  · refine ensures_expect_bind (by decide) (fun _ _ => ?_) t
    exact ensures_bind hcondition fun _ _ _ => ensures_bind hself fun _ _ _ => ensures_pure rfl
  · refine ensures_expect_bind (by decide) (fun _ _ => ?_) t
    refine ensures_expect_bind (by decide) fun _ _ => ?_
    refine ensures_bind (ensures_any _) fun _ _ _ => ensures_expect_bind (by decide) fun _ _ => ?_
    refine ensures_bind (ensures_any _) fun _ _ _ => ensures_expect_bind (by decide) fun _ _ => ?_
    refine ensures_bind (ensures_any _) fun _ _ _ => ensures_expect_bind (by decide) fun _ _ => ?_
    exact ensures_bind hself fun _ _ _ => ensures_pure rfl
  · refine ensures_expect_bind (by decide) (fun _ _ => ensures_bind hcondition fun _ _ _ => ?_) t
    exact ensures_expect_bind (by decide) fun _ _ => ensures_pure rfl
  · next hreturn => exact absurd hreturn ht
  · refine ensures_expect_bind (by decide) (fun _ _ => ?_) t
    refine ensures_bind (ensures_any _) fun _ _ _ => ?_
    exact ensures_expect_bind (by decide) fun _ _ => ensures_pure rfl
  · split
    · refine ensures_bind deriving_declaration (fun n s hn => ?_) t
      refine ensures_expect_bind (by decide) fun _ _ => ensures_pure ?_
      exact Node.isReturn_of_isVariableDeclaration (hn.admits n (List.mem_singleton.2 rfl))
    · refine ensures_bind deriving_expression (fun n s hn => ?_) t
      have hreturn := Node.isReturn_of_isExpression (hn.admits n (List.mem_singleton.2 rfl))
      exact ensures_accept_bind (by decide) (fun _ _ => ensures_pure hreturn) (ensures_pure hreturn)

theorem deriving_bodyReturn :
    Ensures bodyReturn fun returned s => Derives .statement returned.toList s ∧
      (∀ n ∈ returned, n.isReturn = true) ∧ (returned = none → s.errors ≠ []) := by
  intro front
  refine ensuresAt_check_bind (fun _ => ?_) fun _ => ?_
  · rw [if_pos rfl]
    refine ensuresAt_recovering (ensures_map (deriving_returnStatement.mono ?_) front) ?_
    · rintro n s ⟨hn, hreturn⟩
      refine ⟨hn, ?_, fun hnone => absurd hnone (Option.some_ne_none n)⟩
      rintro _ ⟨rfl⟩
      exact hreturn
    · intro s e u
      refine ⟨.skip _, fun _ hn => absurd hn (Option.not_mem_none _), fun _ => ?_⟩
      rw [Trace.errors_append]
      exact List.append_ne_nil_of_right_ne_nil _ (List.cons_ne_nil _ _)
  · rw [if_neg Bool.false_ne_true]
    refine ensures_bind (ensures_any _) (fun e s _ => ?_) front
    refine ensures_report_bind (ensures_pure ?_)
    refine ⟨.skip _, fun _ hn => absurd hn (Option.not_mem_none _), fun _ => ?_⟩
    rw [Trace.errors_append]
    exact List.append_ne_nil_of_right_ne_nil _ (List.cons_ne_nil _ _)

theorem deriving_bodyItems (needsReturn : Bool) :
    Ensures (items (endsBody needsReturn) toStatement (some <$> statement)) fun ns s =>
      Derives .statement ns s ∧ (needsReturn = true → ∀ n ∈ ns, n.isReturn = false) := by
  have hitem : ∀ t, endsBody needsReturn t = false →
      EnsuresAt t (some <$> statement) fun found s => Derives .statement found.toList s ∧
        (needsReturn = true → ∀ n ∈ found.toList, n.isReturn = false) := by
    intro t hgo
    refine ensuresAt_map fun finish ahead n hfront hn => ⟨deriving_statement t hfront hn, ?_⟩
    rintro rfl
    have ht : t.terminal ≠ .returnKeyword := by
      intro ht
      rw [endsBody, ht] at hgo
      exact absurd hgo (by decide)
    exact List.forall_mem_singleton.2 (ensuresAt_statement_isReturn ht hfront hn)
  refine ensures_items _ hitem ?_ ?_ ?_
  · exact fun s e u => ⟨.skip _, fun _ => List.forall_mem_nil _⟩
  · exact ⟨.skip _, fun _ => List.forall_mem_nil _⟩
  · rintro found s others u ⟨hfound, hreturn⟩ ⟨hothers, hreturns⟩
    exact ⟨hfound.append hothers,
      fun hneeds => List.forall_mem_append.2 ⟨hreturn hneeds, hreturns hneeds⟩⟩

theorem deriving_methodBody (needsReturn : Bool) :
    Deriving (.body needsReturn) (methodBody needsReturn) := by
  refine ensures_expect_bind (by decide) fun t _ => ?_
  refine ensures_bind (deriving_bodyItems needsReturn) ?_
  rintro ns s ⟨hns, hreturns⟩
  have hcontinue : ∀ returned : Parse (Option Node),
      Ensures returned (fun found u => Derives .statement found.toList u ∧
        (∀ n ∈ found, needsReturn = true ∧ n.isReturn = true) ∧
          (needsReturn = true → found = none → u.errors ≠ [])) →
      Ensures (returned >>= fun found => expect .rightBrace >>= fun _ =>
          pure (.methodBody (ns.takeWhile Node.isVariableDeclaration)
            (ns.dropWhile Node.isVariableDeclaration) found t.location))
        fun n u => Derives (.body needsReturn) [n] (.read t :: (s ++ u)) := by
    intro returned hreturned
    refine ensures_bind hreturned ?_
    rintro found u ⟨hfound, hreturn, hnone⟩
    refine ensures_expect_bind (by decide) fun closing _ => ensures_pure ?_
    refine .body hns hreturns (hfound.andThen _) hreturn fun hneeds hfound => ?_
    rw [Trace.errors_append]
    exact List.append_ne_nil_of_left_ne_nil (hnone hneeds hfound) _
  split
  · next hneeds =>
    refine hcontinue _ (deriving_bodyReturn.mono ?_)
    rintro returned u ⟨hreturned, hreturn, hnone⟩
    exact ⟨hreturned, fun n hn => ⟨hneeds, hreturn n hn⟩, fun _ => hnone⟩
  · next hneeds =>
    refine hcontinue _ (ensures_pure ⟨.skip _, fun _ hn => absurd hn (Option.not_mem_none _), ?_⟩)
    exact fun h => absurd h hneeds

theorem deriving_mainMethod : Deriving .mainMethod mainMethod := by
  refine ensures_expect_bind (by decide) fun start _ => ?_
  refine ensures_expect_bind (by decide) fun static _ => ?_
  refine ensures_expect_bind (by decide) fun void _ => ?_
  refine ensures_expect_bind (by decide) fun main _ => ?_
  refine ensures_expect_bind (by decide) fun opening _ => ?_
  refine ensures_expect_bind (by decide) fun type _ => ?_
  refine ensures_expect_bind (by decide) fun left _ => ?_
  refine ensures_expect_bind (by decide) fun right _ => ?_
  refine ensures_identifier_bind fun name _ => ?_
  refine ensures_expect_bind (by decide) fun closing _ => ?_
  refine ensures_bind (deriving_methodBody false) fun body u hbody => ensures_pure ?_
  have hparameter : Derives .declaration [.variableDeclaration "String[]" name.text type.location]
      [.read static, .read void, .read main, .read opening, .read type, .read left, .read right,
        .read name, .read closing] :=
    Derives.declaration.after [_, _, _, _]
  exact .mainMethod hparameter (hbody.andThen _)

theorem deriving_mainClass : Deriving .mainClass mainClass := by
  refine ensures_expect_bind (by decide) fun t _ => ensures_identifier_bind fun name _ => ?_
  refine ensures_expect_bind (by decide) fun opening _ => ?_
  refine ensures_bind deriving_mainMethod fun method s hmethod => ?_
  refine ensures_expect_bind (by decide) fun closing _ => ensures_pure ?_
  exact .mainClass ((hmethod.andThen _).after [_, _])

theorem ensures_attributes :
    Ensures attributes fun names s => ∃ as : List Token, names = as.map (·.text) ∧
      ∀ a ∈ as, isAttribute a = true ∧ .read a ∈ s := by
  refine ensures_fix (fun _ names s => ∃ as : List Token, names = as.map (·.text) ∧
    ∀ a ∈ as, isAttribute a = true ∧ .read a ∈ s) (fun self hself _ => ?_) ()
  refine ensures_current_bind fun t => ?_
  split
  · next ht =>
    refine ensuresAt_advance_bind ?_ (ensures_map ((hself ()).mono ?_))
    · rintro l rfl
      exact absurd ht (by simp [isAttribute, Token.endOfFile, Lexeme.endOfFile])
    · rintro _ s ⟨as, rfl, has⟩
      refine ⟨t :: as, rfl, List.forall_mem_cons.2 ⟨⟨ht, List.mem_cons_self ..⟩, ?_⟩⟩
      exact fun a ha => ⟨(has a ha).1, List.mem_cons_of_mem _ (has a ha).2⟩
  · exact ensures_pure ⟨[], rfl, List.forall_mem_nil _⟩ t

theorem deriving_parameters : DerivingAll .declaration parameters := by
  refine ensures_expect_bind (by decide) fun opening _ => ensures_accept_bind (by decide) ?_ ?_
  · exact fun _ _ => ensures_pure (.skip _)
  · refine ensures_bind (deriving_commaSeparated deriving_declaration) fun ns s hns => ?_
    refine ensures_expect_bind (by decide) fun closing _ => ensures_pure ?_
    exact (hns.andThen _).after [_]

theorem deriving_method : Deriving .method method := by
  refine ensures_expect_bind (by decide) fun t _ => ensures_bind ensures_attributes ?_
  rintro _ s ⟨as, rfl, has⟩
  refine ensures_bind (ensures_any _) fun type u _ => ?_
  refine ensures_bind (ensures_any _) fun name v _ => ?_
  refine ensures_bind deriving_parameters fun ns w hns => ?_
  refine ensures_bind (deriving_methodBody true) fun body x hbody => ensures_pure ?_
  have hattributes : ∀ a ∈ as, isAttribute a = true ∧ .read a ∈ s ++ (u ++ (v ++ w)) :=
    fun a ha => ⟨(has a ha).1, List.mem_append_left _ (has a ha).2⟩
  have hresult : Derives .method [.methodDeclaration ("public" :: as.map (·.text)) type name ns body
      t.location] _ := .method hattributes (((hns.after v).after u).after s) (hbody.andThen [])
  simpa using hresult

/-! ## Classes -/

theorem deriving_memberVariables :
    Ensures memberVariables fun ns s =>
      Derives .statement ns s ∧ ∀ n ∈ ns, n.isVariableDeclaration = true := by
  have hitem : Ensures memberVariable fun found s => Derives .statement found.toList s ∧
      ∀ n ∈ found.toList, n.isVariableDeclaration = true := by
    refine ensures_bind deriving_statement fun n s hn => ensures_keep (fun hkind => ?_) fun e => ?_
    · exact ⟨hn.andThen _, List.forall_mem_singleton.2 (beq_iff_eq.2 hkind)⟩
    · exact ⟨.skip _, List.forall_mem_nil _⟩
  refine ensures_items _ (fun t _ => hitem t) ?_ ?_ ?_
  · exact fun s e u => ⟨.skip _, List.forall_mem_nil _⟩
  · exact ⟨.skip _, List.forall_mem_nil _⟩
  · rintro found s others u ⟨hfound, hkind⟩ ⟨hothers, hkinds⟩
    exact ⟨hfound.append hothers, List.forall_mem_append.2 ⟨hkind, hkinds⟩⟩

theorem deriving_classDeclaration : Deriving .classDeclaration classDeclaration := by
  refine ensures_expect_bind (by decide) fun t _ => ensures_identifier_bind fun name _ => ?_
  refine ensures_bind (ensures_any _) fun base s _ => ?_
  refine ensures_expect_bind (by decide) fun opening _ => ?_
  refine ensures_bind deriving_memberVariables ?_
  rintro declarations u ⟨hdeclarations, hkinds⟩
  refine ensures_bind (deriving_items (deriving_some deriving_method)) fun methods v hmethods => ?_
  refine ensures_expect_bind (by decide) fun closing _ => ensures_pure ?_
  have hresult : Derives .classDeclaration
      [.classDeclaration name.text base declarations methods t.location] _ :=
    .classDeclaration (hdeclarations.after (.read name :: (s ++ [.read opening]))) hkinds
      (hmethods.andThen [.read closing])
  simpa using hresult

theorem deriving_topItem : DerivingOption .classDeclaration topItem := by
  refine ensures_accept_bind (by decide) ?_ ?_
  · exact fun _ _ => ensures_pure (.skip _)
  · intro front
    refine ensuresAt_check_bind (fun _ => ?_) fun _ => ?_
    · refine ensures_bind deriving_classDeclaration (fun n s hn => ?_) front
      exact ensures_keep (fun _ => hn.andThen _) fun _ => .skip _
    · refine ensures_bind deriving_statement (fun n s hn => ?_) front
      refine ensures_keep (fun hkind => ?_) fun _ => .skip _
      have hadmits := hn.admits n (List.mem_singleton.2 rfl)
      exact absurd (hkind ▸ List.mem_cons_self ..) hadmits

theorem ensures_program :
    Ensures program fun p s => ∃ (first : Option Node) (others : List Node) (u v : Trace),
      p.classes = first.toList ++ others ∧ s = u ++ v ∧
        Derives .mainClass first.toList u ∧ Derives .classDeclaration others v := by
  refine ensures_current_bind fun t => ensures_atEnd_bind (fun done => ?_) t
  split
  · refine ensures_report_bind (ensures_pure ?_)
    exact ⟨none, [], [_], [], rfl, (List.append_nil _).symm, .skip _, .skip _⟩
  · have hmain : Ensures (recovering toStatement (some <$> mainClass)) fun found s =>
        Derives .mainClass found.toList s :=
      fun front => ensuresAt_recovering (deriving_some deriving_mainClass front)
        fun _ _ _ => .skip _
    refine ensures_bind hmain fun first u hfirst => ?_
    refine ensures_bind (deriving_items deriving_topItem) fun others v hothers => ensures_pure ?_
    exact ⟨first, others, u, v ++ [], rfl, rfl, hfirst, hothers.andThen _⟩

namespace Parser

theorem run_derives {q : Parser} {p : Parse Node} {c : Category} {n : Node} (hp : Deriving c p)
    (hn : (q.run p).1 = .ok n) : ∃ s, Derives c [n] s ∧ s.tokens <+: q.ahead :=
  ⟨_, hp _ rfl hn, _, p.conserves q.finish q.ahead⟩

/-- A program is derived from all the tokens ahead, and its errors are counted. -/
theorem program_derives (q : Parser) :
    ∃ (first : Option Node) (others : List Node) (u v : Trace),
      q.program.1.classes = first.toList ++ others ∧
        Derives .mainClass first.toList u ∧ Derives .classDeclaration others v ∧
          (u ++ v).tokens = q.ahead ∧ q.program.2.errors = q.errors + (u ++ v).errors.length := by
  obtain ⟨p, s, hrun⟩ := program_ok q.finish q.ahead
  have htokens := Grammar.program.conserves q.finish q.ahead
  have hensures := ensures_program _ rfl (congrArg Outcome.value hrun)
  rw [hrun] at htokens hensures
  rw [List.append_nil] at htokens
  obtain ⟨first, others, u, v, hclasses, rfl, hfirst, hothers⟩ := hensures
  refine ⟨first, others, u, v, ?_, hfirst, hothers, htokens, ?_⟩
  · rw [program, run, hrun]
    exact hclasses
  · rw [program, run, hrun]

end Parser

theorem source_derives (source text : String) :
    ∃ (first : Option Node) (others : List Node) (u v : Trace),
      (parseText source text).1.classes = first.toList ++ others ∧
        Derives .mainClass first.toList u ∧ Derives .classDeclaration others v ∧
          (u ++ v).tokens = sourceTokens source text ∧
            ((parseText source text).2.hadError = true ↔ (u ++ v).errors ≠ []) := by
  obtain ⟨first, others, u, v, hclasses, hfirst, hothers, htokens, herrors⟩ :=
    (Parser.ofStream (.ofText source text)).program_derives
  refine ⟨first, others, u, v, hclasses, hfirst, hothers, ?_, ?_⟩
  · rw [htokens, ahead_ofText]
  · have hcount : (parseText source text).2.errors = 0 + (u ++ v).errors.length := herrors
    rw [Parser.hadError, hcount, Nat.zero_add, bne_iff_ne, ne_eq, List.length_eq_zero_iff]

end MiniJava.Grammar
