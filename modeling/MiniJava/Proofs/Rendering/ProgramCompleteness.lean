import MiniJava.Proofs.Grammar.Progress
import MiniJava.Proofs.Rendering.StatementCompleteness
/-!
# Programs written are programs read

The production of programs reads every rendering in which no semicolon is missing, and
reports nothing.
-/

namespace MiniJava.Grammar

open Parse Rendering

variable {finish : Location} {n : Node} {ts us rest : List Token} {t : Token}

theorem statement_reads (hn : Statement false n ts)
    (hend : (frontOf finish rest).terminal ≠ .elseKeyword) :
    statement.Reads finish ts rest n :=
  statement_completes _ finish (Nat.lt_succ_self _) ⟨hn, fun _ => hend⟩

/-! ## Bodies -/

theorem returnStatement_reads_of_isReturn (hn : Statement false n ts)
    (hreturn : n.isReturn = true) :
    (∃ t us, ts = t :: us ∧ t.Spells .returnKeyword) ∧
      ∀ finish rest, returnStatement.Reads finish ts rest n := by
  refine ⟨hn.eq_cons_of_isReturn hreturn, fun finish rest => ?_⟩
  cases hn with
  | «return» ht hvalue hsemicolon => exact returnStatement_reads ht hvalue hsemicolon
  | declaration hn => cases hn; exact absurd hreturn Bool.false_ne_true
  | expression hn =>
      rw [Node.isReturn_of_isExpression hn.isExpression] at hreturn
      exact absurd hreturn Bool.false_ne_true
  | bare hloose => exact absurd hloose Bool.false_ne_true
  | _ => exact absurd hreturn Bool.false_ne_true

theorem span_append {locals statements : List Node}
    (hlocals : ∀ n ∈ locals, n.isVariableDeclaration = true)
    (hstatements : ∀ n ∈ statements.head?, n.isVariableDeclaration = false) :
    (locals ++ statements).takeWhile Node.isVariableDeclaration = locals ∧
      (locals ++ statements).dropWhile Node.isVariableDeclaration = statements := by
  rw [List.takeWhile_append_of_pos hlocals, List.dropWhile_append_of_pos hlocals]
  cases statements with
  | nil => exact ⟨List.append_nil _, rfl⟩
  | cons n ns =>
      have hn := hstatements n rfl
      rw [List.takeWhile_cons_of_neg (by rw [hn]; exact Bool.false_ne_true),
        List.dropWhile_cons_of_neg (by rw [hn]; exact Bool.false_ne_true)]
      exact ⟨List.append_nil _, rfl⟩

theorem bodyStatements_read {needsReturn : Bool} {ns : List Node}
    (hns : Sequence (Statement false) ns ts)
    (hnone : needsReturn = true → ∀ n ∈ ns, n.isReturn = false)
    (ht : endsBody needsReturn t = true) :
    (items (endsBody needsReturn) toStatement (some <$> statement)).Reads finish ts (t :: rest)
      ns := by
  refine statements_read (statement_completes _ finish) hns ?_ ht (Nat.lt_succ_self _)
  intro u hu
  rw [endsBody, Bool.or_eq_true, Bool.and_eq_true, beq_iff_eq, beq_iff_eq] at hu
  exact hu.imp id fun ⟨hneeds, hreturn⟩ => ⟨hreturn, hnone hneeds⟩

theorem methodBody_reads {needsReturn : Bool} (hn : Body false needsReturn n ts) :
    (methodBody needsReturn).Reads finish ts rest n := by
  obtain @⟨locals, statements, returned, opening, ts, us, closing, hopening, hsequence, hlocals,
    hstatements, hnone, hreturned, hclosing⟩ := hn
  obtain ⟨htake, hdrop⟩ := span_append hlocals hstatements
  have hclosed : ∀ {returned : Option Node},
      (expect .rightBrace >>= fun _ => pure (Node.methodBody
        ((locals ++ statements).takeWhile Node.isVariableDeclaration)
        ((locals ++ statements).dropWhile Node.isVariableDeclaration) returned
        opening.location)).Reads finish [closing] rest
          (.methodBody locals statements returned opening.location) := by
    rw [htake, hdrop]
    exact reads_spelled hclosing (by decide) reads_done
  apply reads_spelled hopening (by decide)
  cases needsReturn with
  | true =>
      cases returned with
      | none => exact absurd hreturned.1 (by decide)
      | some n =>
          obtain ⟨-, hreturn, hn⟩ := hreturned
          obtain ⟨⟨u, us, rfl, hu⟩, hreads⟩ := returnStatement_reads_of_isReturn hn hreturn
          have hterminal := hu.terminal_eq (by decide)
          refine reads_seq (bodyStatements_read hsequence hnone ?_) (reads_seq ?_ hclosed)
          · rw [endsBody, hterminal]
            rfl
          · apply reads_check_bind.2
            have hfront : (frontOf finish (u :: us ++ ([closing] ++ rest))).terminal =
                .returnKeyword := hterminal
            rw [hfront, beq_self_eq_true, if_pos rfl]
            exact reads_recovering.2 (reads_mapped (hreads _ _))
  | false =>
      obtain ⟨rfl, rfl⟩ : returned = none ∧ us = [] := by
        cases returned with
        | none => exact ⟨rfl, hreturned.2⟩
        | some n => exact absurd hreturned.1 Bool.false_ne_true
      refine reads_seq (bodyStatements_read hsequence hnone ?_) (reads_seq reads_done hclosed)
      rw [endsBody, hclosing.terminal_eq (by decide)]
      rfl

/-! ## Methods -/

theorem attributes_read {as : List Token} (has : ∀ a ∈ as, Attribute a)
    (hend : isAttribute (frontOf finish rest) = false) :
    attributes.Reads finish as rest (as.map (·.text)) := by
  induction as with
  | nil =>
      rw [attributes, reads_fix, reads_current_bind]
      dsimp only [List.nil_append]
      rw [if_neg (by rw [hend]; exact Bool.false_ne_true)]
      exact reads_done
  | cons a as ih =>
      obtain ⟨⟨x, hkind, hx, ha⟩, has⟩ := List.forall_mem_cons.1 has
      have hattribute : isAttribute a = true := by
        have hreserved : x ≠ .unreserved := by
          rintro rfl
          exact absurd hkind (by decide)
        have hkeyword : a.kind = .keyword := (congrArg Lexeme.kind ha).trans hkind
        rw [isAttribute, hkeyword, ha.terminal_eq hreserved, bne_iff_ne.2 hx]
        rfl
      refine reads_fix.2 (reads_front (t := a) ?_ rfl)
      rw [if_pos hattribute]
      refine reads_taken (reads_mapped (reads_below.2 ⟨?_, ih has⟩))
      simp

theorem isAttribute_of_kind (h : t.kind ≠ .keyword) : isAttribute t = false := by
  rw [isAttribute, beq_eq_false_iff_ne.2 h, Bool.false_and]

theorem returnType_begins {type : String} (h : ReturnType type ts) :
    ∃ t us, ts = t :: us ∧ isAttribute t = false := by
  cases h with
  | @void t ht =>
      refine ⟨t, [], rfl, ?_⟩
      rw [isAttribute, ht.terminal_eq (by decide)]
      exact Bool.and_false _
  | named h =>
      obtain @⟨t, tail, ts, ht, -⟩ := h
      refine ⟨t, ts, rfl, isAttribute_of_kind fun hkind => ?_⟩
      have ht := ht.kind_eq
      rw [hkind] at ht
      exact absurd ht (by decide)

theorem returnType_reads {type : String} (h : ReturnType type ts)
    (hend : (frontOf finish rest).terminal ≠ .leftBracket) :
    returnType.Reads finish ts rest type := by
  cases h with
  | void ht => exact reads_accepted ht (by decide) reads_done
  | named h =>
      refine reads_passed (by decide) ?_ (typeName_reads h hend)
      obtain ⟨ht, -⟩ := h
      exact ht.terminal_ne (by decide)

theorem methodName_begins {name : String} (h : MethodName name t) :
    t.terminal ≠ .leftBracket := by
  cases h with
  | main ht => exact ht.terminal_ne (by decide)
  | named ht => rw [ht.terminal_eq]; decide

theorem methodName_reads {name : String} (h : MethodName name t) :
    methodName.Reads finish [t] rest name := by
  cases h with
  | main ht => exact reads_accepted ht (by decide) reads_done
  | named ht =>
      refine reads_passed (by decide) ?_ ?_
      · rw [show (frontOf finish ([t] ++ rest)).terminal = _ from ht.terminal_eq]
        decide
      · exact reads_identifier.2 ⟨t, rfl, ht.kind_eq, ht.text_eq.symm⟩

theorem parameters_begin {ns : List Node} (h : Separated Declaration ns ts) :
    ∃ t us, ts = t :: us ∧ ElementType t := by
  cases h with
  | one hn => obtain ⟨⟨ht, -⟩, -⟩ := hn; exact ⟨_, _, rfl, ht⟩
  | more hn => obtain ⟨⟨ht, -⟩, -⟩ := hn; exact ⟨_, _, rfl, ht⟩

theorem parameters_read {ns : List Node} (h : Parameters ns ts) :
    parameters.Reads finish ts rest ns := by
  cases h with
  | none hopening hclosing =>
      exact reads_spelled hopening (by decide) (reads_accepted hclosing (by decide) reads_done)
  | @some _ opening ts closing hopening hns hclosing =>
      have hdeclarations : Completes ((ts ++ closing :: rest).length + 1) finish declaration
          fun n ts _ => Declaration n ts ∧ True := fun _ _ _ _ h => declaration_reads h.1
      refine reads_spelled hopening (by decide) (reads_passed (by decide) ?_ ?_)
      · obtain ⟨t, us, rfl, ht⟩ := parameters_begin hns
        exact ht.terminal_ne (by decide)
      · refine reads_seq ?_ (reads_spelled hclosing (by decide) reads_done)
        exact completes_commaSeparated (fun _ => True) (fun _ _ => trivial) hdeclarations
          (Nat.lt_succ_self _) ⟨hns, trivial, hclosing.terminal_ne (by decide)⟩

theorem method_reads (hn : Method false n ts) : method.Reads finish ts rest n := by
  obtain @⟨type, name, parameters, body, t, attributes, ts, u, us, vs, ht, hattributes, htype,
    hname, hparameters, hbody⟩ := hn
  obtain ⟨v, ws, rfl, hv⟩ := returnType_begins htype
  refine reads_spelled ht (by decide) (reads_seq (attributes_read hattributes hv) ?_)
  apply reads_seq_cons (returnType_reads htype (methodName_begins hname))
  refine reads_seq_one (methodName_reads hname) (reads_seq (parameters_read hparameters) ?_)
  exact reads_then (methodBody_reads hbody) reads_done

theorem mainMethod_reads (hn : MainMethod false n ts) : mainMethod.Reads finish ts rest n := by
  obtain ⟨hstart, hstatic, hvoid, hmain, hopening, htype, hleft, hright, hname, hclosing, hbody⟩ :=
    hn
  refine reads_spelled hstart (by decide) (reads_spelled hstatic (by decide) ?_)
  refine reads_spelled hvoid (by decide) (reads_spelled hmain (by decide) ?_)
  refine reads_spelled hopening (by decide) (reads_spelled htype (by decide) ?_)
  refine reads_spelled hleft (by decide) (reads_spelled hright (by decide) ?_)
  refine reads_identified hname (reads_spelled hclosing (by decide) ?_)
  exact reads_then (methodBody_reads hbody) reads_done

/-! ## Classes -/

theorem baseClass_reads {base : Option String} (h : Base base ts)
    (hend : (frontOf finish rest).terminal ≠ .extendsKeyword) :
    baseClass.Reads finish ts rest base := by
  cases h with
  | none => exact reads_passed (by decide) hend reads_done
  | «extends» ht hname =>
      refine reads_accepted ht (by decide) (reads_mapped ?_)
      exact reads_identifier.2 ⟨_, rfl, hname.kind_eq, hname.text_eq.symm⟩

theorem memberVariables_read {ns : List Node} (hns : Sequence (Statement false) ns ts)
    (hvariables : ∀ n ∈ ns, n.isVariableDeclaration = true) (ht : endsVariables t = true) :
    memberVariables.Reads finish ts (t :: rest) ns := by
  have hitem : Completes ((ts ++ t :: rest).length + 1) finish memberVariable fun found ts front =>
      (∃ n, found = some n ∧ Statement false n ts ∧ n.isVariableDeclaration = true) ∧
        front.terminal ≠ .elseKeyword := by
    rintro found ts rest - ⟨⟨n, rfl, hn, hkind⟩, hend⟩
    exact reads_then (statement_reads hn hend) (reads_keep.2 ⟨rfl, beq_iff_eq.1 hkind, rfl⟩)
  refine items_reads (·.terminal ≠ .elseKeyword) hitem ?_
    (hns.mono fun n hmem ts hn => ⟨hn, hvariables n hmem⟩) (Nat.lt_succ_self _) ?_ (.inr ht)
  · rintro n ts ⟨hn, -⟩
    obtain ⟨u, us, rfl, hbegins, -⟩ := hn.begins
    refine ⟨u, us, rfl, fun helse => hbegins (by simp [helse]), ?_⟩
    rw [endsVariables, Bool.or_eq_false_iff, beq_eq_false_iff_ne, beq_eq_false_iff_ne]
    exact ⟨fun hpublic => hbegins (by simp [hpublic]), fun hbrace => hbegins (by simp [hbrace])⟩
  · intro helse
    rw [endsVariables, show t.terminal = .elseKeyword from helse] at ht
    exact absurd ht (by decide)

theorem method_begins (hn : Method false n ts) :
    ∃ t us, ts = t :: us ∧ t.Spells .publicKeyword := by
  obtain ⟨ht, -⟩ := hn
  exact ⟨_, _, rfl, ht⟩

theorem memberMethods_read {ns : List Node} (hns : Sequence (Method false) ns ts)
    (ht : t.Spells .rightBrace) : memberMethods.Reads finish ts (t :: rest) ns := by
  have hitem : Completes ((ts ++ t :: rest).length + 1) finish (some <$> method)
      fun found ts _ => (∃ n, found = some n ∧ Method false n ts) ∧ True := by
    rintro found ts rest - ⟨⟨n, rfl, hn⟩, -⟩
    exact reads_mapped (method_reads hn)
  refine items_reads (fun _ => True) hitem ?_ hns (Nat.lt_succ_self _) trivial
    (.inr (beq_iff_eq.2 (ht.terminal_eq (by decide))))
  intro n ts hn
  obtain ⟨u, us, rfl, hu⟩ := method_begins hn
  exact ⟨u, us, rfl, trivial, beq_eq_false_iff_ne.2 (hu.terminal_ne (by decide))⟩

theorem memberMethods_begin {ns : List Node} (hns : Sequence (Method false) ns ts)
    (ht : t.Spells .rightBrace) (rest : List Token) :
    ∃ u more, ts ++ t :: rest = u :: more ∧ endsVariables u = true := by
  cases hns with
  | nil =>
      refine ⟨t, rest, rfl, ?_⟩
      rw [endsVariables, ht.terminal_eq (by decide)]
      rfl
  | cons hn =>
      obtain ⟨u, us, rfl, hu⟩ := method_begins hn
      refine ⟨u, _, rfl, ?_⟩
      rw [endsVariables, hu.terminal_eq (by decide)]
      rfl

theorem classDeclaration_reads (hn : Class false n ts) :
    classDeclaration.Reads finish ts rest n := by
  obtain ⟨ht, hname, hbase, hopening, hvariables, hkinds, hmethods, hclosing⟩ := hn
  refine reads_spelled ht (by decide) (reads_identified hname ?_)
  refine reads_seq (baseClass_reads hbase (hopening.terminal_ne (by decide))) ?_
  obtain ⟨u, more, hmore, hu⟩ := memberMethods_begin hmethods hclosing rest
  refine reads_spelled hopening (by decide) (reads_seq ?_ (reads_seq ?_ (reads_spelled hclosing
    (by decide) reads_done)))
  · rw [List.append_assoc, List.singleton_append, hmore]
    exact memberVariables_read hvariables hkinds hu
  · exact memberMethods_read hmethods hclosing

theorem mainClass_reads (hn : MainClass false n ts) : mainClass.Reads finish ts rest n := by
  obtain ⟨ht, hname, hopening, hmethod, hclosing⟩ := hn
  refine reads_spelled ht (by decide) (reads_identified hname ?_)
  apply reads_spelled hopening (by decide)
  exact reads_seq (mainMethod_reads hmethod) (reads_spelled hclosing (by decide) reads_done)

/-! ## Programs -/

theorem otherClasses_read {ns : List Node} (hns : Classes false ns ts) :
    otherClasses.Reads finish ts [] ns := by
  induction hns with
  | nil => exact reads_items.2 (.inl ⟨.inl rfl, rfl, rfl⟩)
  | @semicolon ns t ts ht _ ih =>
      refine reads_items.2 (.inr ⟨List.cons_ne_nil _ _, rfl, [t], ts, none, ns, rfl,
        List.cons_ne_nil _ _, ?_, ih, rfl⟩)
      exact reads_accepted ht (by decide) reads_done
  | @cons n ns ts us hn _ ih =>
      have hbegins : ∃ c body, ts = c :: body ∧ c.terminal = .classKeyword := by
        obtain ⟨ht, -⟩ := hn
        exact ⟨_, _, rfl, ht.terminal_eq (by decide)⟩
      have hkind : n.kind = .classDeclaration := by
        cases hn
        rfl
      have hitem : topItem.Reads finish ts (us ++ []) (some n) :=
        topItem_reads (classDeclaration_reads hn) hbegins hkind
      obtain ⟨c, body, rfl, -⟩ := hbegins
      exact reads_items.2 (.inr ⟨List.cons_ne_nil _ _, rfl, c :: body, us, some n, ns, rfl,
        List.cons_ne_nil _ _, hitem, ih, rfl⟩)

/-- A program is read from every rendering of it. -/
theorem program_reads {p : Program} (h : Rendering.Program false p ts) :
    program.Reads finish ts [] p := by
  obtain @⟨first, others, ts, us, hfirst, hothers⟩ := h
  obtain ⟨t, body, rfl, hlocation⟩ : ∃ t body, ts = t :: body ∧ first.location = t.location := by
    cases hfirst
    exact ⟨_, _, rfl, rfl⟩
  rw [hlocation]
  refine reads_front (t := t) (reads_atEnd_bind.2 ?_) rfl
  apply reads_seq (reads_recovering.2 (reads_mapped (mainClass_reads hfirst)))
  exact reads_then (otherClasses_read hothers) reads_done

end MiniJava.Grammar
