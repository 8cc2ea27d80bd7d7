import MiniJava.Proofs.Rendering.ExpressionSoundness
import MiniJava.Proofs.Rendering.Program
import MiniJava.Grammar.Statement
/-!
# Statements read are statements written

Every clean run of a production of statements reads a loose rendering of the node that it
yields.  No `else` follows a statement that could take it.
-/

namespace MiniJava

namespace Grammar

open Parse Rendering

/-- A statement in a loose rendering, to which no `else` after it belongs. -/
def Complete (n : Node) (ts : List Token) (front : Token) : Prop :=
  Rendering.Statement true n ts ∧ (n.endsOpen = true → front.terminal ≠ .elseKeyword)

theorem complete_of_endsOpen {n : Node} {ts : List Token} (front : Token)
    (h : Rendering.Statement true n ts) (hn : n.endsOpen = false) : Complete n ts front :=
  ⟨h, fun hopen => absurd (hn.symm.trans hopen) Bool.false_ne_true⟩

theorem typeName_sound :
    Sound typeName fun type ts _ => ∃ t us, ts = t :: us ∧ TypeName type ts ∧
      (t.kind = .dataType → DataType t) := by
  refine sound_current_bind fun t => ?_
  split
  · next ht =>
    refine sound_taken_bind ?_ fun hwf => ?_
    · rintro l rfl
      exact absurd ht (show ¬ (TokenKind.endOfFile = .dataType ∨
        TokenKind.endOfFile = .identifier) by decide)
    have helement : ElementType t := ht.imp hwf.dataType hwf.names
    refine sound_accept_bind (by decide) ?_ ?_
    · intro opening hopening
      refine sound_expect_bind (by decide) fun closing hclosing => sound_pure fun _ => ?_
      exact ⟨t, _, rfl, .mk helement (.array hopening hclosing), hwf.dataType⟩
    · refine sound_pure fun _ _ => ⟨t, [], rfl, ?_, hwf.dataType⟩
      rw [← @String.append_empty t.text]
      exact .mk helement .plain
  · exact sound_refuse

theorem declaration_sound :
    Sound declaration fun n ts _ => ∃ t us, ts = t :: us ∧ Declaration n ts ∧
      (t.kind = .dataType → DataType t) := by
  refine sound_current_bind fun t => sound_bind typeName_sound fun type s => ?_
  refine sound_identifier_bind fun u name hu => sound_pure ?_
  rintro _ ⟨t, us, rfl, htype, hkind⟩ rfl
  exact ⟨t, us ++ [u], rfl, .mk htype hu, hkind⟩

theorem declarationStatement_sound :
    Sound declarationStatement fun n ts front =>
      (ts.headD front).kind = .dataType → Complete n ts front := by
  refine sound_bind declaration_sound fun n s => ?_
  refine sound_expect_bind (by decide) fun semicolon hsemicolon => sound_pure ?_
  rintro front ⟨t, us, rfl, hn, hdata⟩ hkind
  apply complete_of_endsOpen front (.declaration hn (hdata hkind) hsemicolon)
  cases hn
  rfl

theorem condition_sound : Sound condition fun n ts _ => Condition n ts := by
  refine sound_expect_bind (by decide) fun opening hopening => ?_
  refine sound_bind expression_sound fun n ts => ?_
  refine sound_expect_bind (by decide) fun closing hclosing => sound_pure ?_
  exact fun _ hn => .mk hopening hn hclosing

theorem clause_sound (terminator : Terminal) :
    Sound (clause terminator) fun found ts _ => Clause found ts := by
  refine sound_check_bind ?_ ?_
  · exact sound_pure fun _ _ => rfl
  · exact sound_map expression_sound fun _ _ _ hn _ => hn

theorem printStatement_sound : Sound printStatement Complete := by
  refine sound_expect_bind (by decide) fun t ht => sound_bind condition_sound fun n ts => ?_
  refine sound_expect_bind (by decide) fun semicolon hsemicolon => sound_pure ?_
  exact fun front hn => complete_of_endsOpen front (.print ht hn hsemicolon) rfl

theorem returnStatement_sound :
    Sound returnStatement fun n ts _ => n.isReturn = true ∧ Rendering.Statement true n ts := by
  refine sound_expect_bind (by decide) fun t ht => sound_bind expression_sound fun n ts => ?_
  refine sound_expect_bind (by decide) fun semicolon hsemicolon => sound_pure ?_
  exact fun _ hn => ⟨rfl, .return ht hn hsemicolon⟩

theorem expressionStatement_sound : Sound expressionStatement Complete := by
  refine sound_bind expression_sound fun n s => sound_accept_bind (by decide) ?_ ?_
  · intro semicolon hsemicolon
    refine sound_pure fun front hn => ?_
    exact complete_of_endsOpen front (.expression hn hsemicolon)
      (Node.endsOpen_of_isExpression hn.isExpression)
  · refine sound_pure fun front _ hn => ?_
    rw [List.append_nil]
    exact complete_of_endsOpen front (.bare rfl hn)
      (Node.endsOpen_of_isExpression hn.isExpression)

section

variable {statement : Parse Node}

theorem ifStatement_sound (h : Sound statement Complete) :
    Sound (ifStatement statement) Complete := by
  refine sound_expect_bind (by decide) fun t ht => sound_bind condition_sound fun tested s => ?_
  refine sound_bind h fun thenBranch us => sound_accept_bind (by decide) ?_ ?_
  · intro middle hmiddle
    refine sound_bind h fun elseBranch vs => sound_pure ?_
    rintro front ⟨helse, hfront⟩ ⟨hthen, hnext⟩ htested
    have hopen : thenBranch.endsOpen = false := by
      rw [← Bool.not_eq_true]
      exact fun hopen => hnext hopen (congrArg Lexeme.terminal hmiddle)
    rw [List.append_nil]
    exact ⟨.ifElse ht htested hthen hopen hmiddle helse, hfront⟩
  · apply sound_pure
    rintro front hfront ⟨hthen, -⟩ htested
    rw [List.append_nil]
    exact ⟨.ifThen ht htested hthen, fun _ => hfront⟩

theorem whileStatement_sound (h : Sound statement Complete) :
    Sound (whileStatement statement) Complete := by
  refine sound_expect_bind (by decide) fun t ht => sound_bind condition_sound fun tested s => ?_
  refine sound_bind h fun body us => sound_pure ?_
  rintro front ⟨hbody, hfront⟩ htested
  rw [List.append_nil]
  exact ⟨.whileLoop ht htested hbody, hfront⟩

theorem forStatement_sound (h : Sound statement Complete) :
    Sound (forStatement statement) Complete := by
  refine sound_expect_bind (by decide) fun t ht => ?_
  refine sound_expect_bind (by decide) fun opening hopening => ?_
  refine sound_bind (clause_sound _) fun first ts => ?_
  refine sound_expect_bind (by decide) fun semicolon hsemicolon => ?_
  refine sound_bind (clause_sound _) fun tested us => ?_
  refine sound_expect_bind (by decide) fun semicolon' hsemicolon' => ?_
  refine sound_bind (clause_sound _) fun update vs => ?_
  refine sound_expect_bind (by decide) fun closing hclosing => ?_
  refine sound_bind h fun body ws => sound_pure ?_
  rintro front ⟨hbody, hfront⟩ hupdate htested hfirst
  rw [List.append_nil]
  exact ⟨.forLoop ht hopening hfirst hsemicolon htested hsemicolon' hupdate hclosing hbody, hfront⟩

theorem blockItems_sound (h : Sound statement Complete) :
    Sound (blockItems statement) fun ns ts _ => Sequence (Rendering.Statement true) ns ts := by
  apply items_sound (Sequence (Rendering.Statement true)) (sound_some h) .nil
  rintro found s others ts front _ ⟨n, rfl, hn, -⟩ hothers
  exact .cons hn hothers

theorem block_sound (h : Sound statement Complete) :
    Sound (block statement) Complete := by
  refine sound_expect_bind (by decide) fun opening hopening => ?_
  refine sound_bind (blockItems_sound h) fun ns ts => ?_
  refine sound_expect_bind (by decide) fun closing hclosing => sound_pure ?_
  exact fun front hns => complete_of_endsOpen front (.block hopening hns hclosing) rfl

theorem statementOf_sound (h : Sound statement Complete) :
    Sound (statementOf statement) Complete := by
  refine sound_current_bind fun t => ?_
  split
  · exact (ifStatement_sound h).mono fun _ _ _ hn _ => hn
  · exact (whileStatement_sound h).mono fun _ _ _ hn _ => hn
  · exact (forStatement_sound h).mono fun _ _ _ hn _ => hn
  · exact printStatement_sound.mono fun _ _ _ hn _ => hn
  · refine returnStatement_sound.mono ?_
    rintro n ts front ⟨hreturn, hn⟩ _
    exact complete_of_endsOpen front hn (Node.endsOpen_of_isReturn hreturn)
  · exact (block_sound h).mono fun _ _ _ hn _ => hn
  · split
    · next hdata =>
      refine declarationStatement_sound.mono ?_
      rintro n ts front hn rfl
      exact hn hdata
    · exact expressionStatement_sound.mono fun _ _ _ hn _ => hn

end

theorem statement_sound : Sound statement Complete := by
  refine sound_fix (fun _ => Complete) ?_ ()
  exact fun self hself _ => statementOf_sound (hself ())

end Grammar

end MiniJava
