import MiniJava.Grammar.Statement
import MiniJava.Proofs.Rendering.ExpressionCompleteness
import MiniJava.Proofs.Rendering.Program
/-!
# Statements written are statements read

The production of statements reads every rendering in which no semicolon is missing, if a
statement that would take an `else` is not before one.
-/

namespace MiniJava

def Terminal.dataTypes : List Terminal :=
  [.doubleType, .intType, .charType, .stringType, .booleanType]

/-- What a statement begins with that is neither a declaration nor an expression. -/
def Terminal.statementOpeners : List Terminal :=
  [.ifKeyword, .whileKeyword, .forKeyword, .printKeyword, .returnKeyword, .leftBrace]

def Lexeme.BeginsStatement (l : Lexeme) : Prop :=
  l.terminal ∉ [Terminal.elseKeyword, .rightBrace, .publicKeyword]

instance (l : Lexeme) : Decidable l.BeginsStatement := inferInstanceAs (Decidable (_ ∉ _))

theorem Lexeme.BeginsStatement.terminal_ne {l : Lexeme} (h : l.BeginsStatement) {x : Terminal}
    (hx : x ∈ [Terminal.elseKeyword, .rightBrace, .publicKeyword]) : l.terminal ≠ x := by
  rintro rfl
  exact h hx

theorem Lexeme.BeginsExpression.beginsStatement {l : Lexeme} (h : l.BeginsExpression) :
    l.BeginsStatement := by
  have helse := h.terminal_ne (x := .elseKeyword) (by decide)
  have hbrace := h.terminal_ne (x := .rightBrace) (by decide)
  have hpublic := h.terminal_ne (x := .publicKeyword) (by decide)
  simp [Lexeme.BeginsStatement, helse, hbrace, hpublic]

namespace Rendering

theorem DataType.kind_eq {t : Token} (h : DataType t) : t.kind = .dataType := by
  obtain ⟨x, hx, ht⟩ := h
  exact (congrArg Lexeme.kind ht).trans hx

theorem DataType.terminal_mem {t : Token} (h : DataType t) :
    t.terminal ∈ Terminal.dataTypes := by
  obtain ⟨x, hx, ht⟩ := h
  rw [show t.terminal = _ from congrArg Lexeme.terminal ht]
  revert hx
  cases x <;> decide

theorem DataType.terminal_ne {t : Token} {x : Terminal} (h : DataType t)
    (hx : x ∉ Terminal.dataTypes) : t.terminal ≠ x := by
  rintro rfl
  exact hx h.terminal_mem

theorem ElementType.terminal_ne {t : Token} {x : Terminal} (h : ElementType t)
    (hx : x ∉ Terminal.unreserved :: Terminal.dataTypes) : t.terminal ≠ x := by
  rcases h with h | h
  · exact h.terminal_ne fun hmem => hx (List.mem_cons_of_mem _ hmem)
  · rw [h.terminal_eq]
    exact fun heq => hx (heq ▸ List.mem_cons_self ..)

theorem ElementType.kind_eq {t : Token} (h : ElementType t) :
    t.kind = .dataType ∨ t.kind = .identifier :=
  h.imp DataType.kind_eq Token.Names.kind_eq

/-- A statement begins with a token that may stand there, and with `return` only if it is a
return statement. -/
theorem Statement.begins {loose : Bool} {n : Node} {ts : List Token} (h : Statement loose n ts) :
    ∃ t us, ts = t :: us ∧ t.toLexeme.BeginsStatement ∧
      (t.terminal = .returnKeyword → n.isReturn = true) := by
  have hspelled : ∀ {t : Token} {x : Terminal}, t.Spells x → x.lexeme.BeginsStatement →
      x.lexeme.terminal ≠ .returnKeyword → t.toLexeme.BeginsStatement ∧
        (t.terminal = .returnKeyword → n.isReturn = true) :=
    fun ht hbegins hx => ⟨ht.transfer hbegins, fun hreturn => absurd hreturn (ht.terminal_ne hx)⟩
  have hexpression : ∀ {ts : List Token}, Begins ts → ∃ t us, ts = t :: us ∧
      t.toLexeme.BeginsStatement ∧ (t.terminal = .returnKeyword → n.isReturn = true) := by
    rintro ts ⟨t, us, rfl, ht⟩
    exact ⟨t, us, rfl, ht.beginsStatement,
      fun hreturn => absurd hreturn (ht.terminal_ne (by decide))⟩
  cases h with
  | declaration _ ht =>
      have helse := ht.terminal_ne (x := .elseKeyword) (by decide)
      have hbrace := ht.terminal_ne (x := .rightBrace) (by decide)
      have hpublic := ht.terminal_ne (x := .publicKeyword) (by decide)
      refine ⟨_, _, rfl, ?_, fun hreturn => absurd hreturn (ht.terminal_ne (by decide))⟩
      simp [Lexeme.BeginsStatement, helse, hbrace, hpublic]
  | ifThen ht => exact ⟨_, _, rfl, hspelled ht (by decide) (by decide)⟩
  | ifElse ht => exact ⟨_, _, rfl, hspelled ht (by decide) (by decide)⟩
  | whileLoop ht => exact ⟨_, _, rfl, hspelled ht (by decide) (by decide)⟩
  | forLoop ht => exact ⟨_, _, rfl, hspelled ht (by decide) (by decide)⟩
  | print ht => exact ⟨_, _, rfl, hspelled ht (by decide) (by decide)⟩
  | «return» ht => exact ⟨_, _, rfl, ht.transfer (by decide), fun _ => rfl⟩
  | block ht => exact ⟨_, _, rfl, hspelled ht (by decide) (by decide)⟩
  | expression hn => exact hexpression (hn.begins.append _)
  | bare _ hn => exact hexpression hn.begins

end Rendering

namespace Grammar

open Parse Rendering

variable {finish : Location} {bound : Nat} {n : Node} {ts us rest : List Token} {t : Token}

/-! ## Types and clauses -/

theorem typeName_reads {type : String} (h : TypeName type ts)
    (hend : (frontOf finish rest).terminal ≠ .leftBracket) :
    typeName.Reads finish ts rest type := by
  obtain @⟨t, tail, ts, ht, htail⟩ := h
  refine reads_front (t := t) ?_ rfl
  rw [if_pos ht.kind_eq]
  apply reads_taken
  cases htail with
  | plain =>
      rw [String.append_empty]
      exact reads_passed (by decide) hend reads_done
  | array hopening hclosing =>
      exact reads_accepted hopening (by decide) (reads_spelled hclosing (by decide) reads_done)

theorem declaration_reads (h : Declaration n ts) : declaration.Reads finish ts rest n := by
  obtain @⟨type, t, ts, name, u, htype, hu⟩ := h
  refine reads_front (t := t) ?_ rfl
  refine reads_seq_cons (typeName_reads htype ?_) (reads_identified hu reads_done)
  rw [show (frontOf finish ([u] ++ rest)).terminal = _ from Token.Names.terminal_eq hu]
  decide

theorem condition_reads (h : Condition n ts) : condition.Reads finish ts rest n := by
  obtain ⟨hopening, hn, hclosing⟩ := h
  refine reads_spelled hopening (by decide) (reads_seq ?_ (reads_spelled hclosing (by decide)
    reads_done))
  exact expression_reads hn (hclosing.transfer (by decide)) rfl

theorem clause_reads {found : Option Node} {x : Terminal} (h : Clause found ts)
    (ht : t.Spells x) (hx : x.lexeme.EndsExpression)
    (hbegins : x ∉ Terminal.openers) : (clause x).Reads finish ts (t :: rest) found := by
  have hreserved : x ≠ .unreserved := by
    rintro rfl
    exact hbegins (List.mem_cons_self ..)
  apply reads_check_bind.2
  cases found with
  | none =>
      obtain rfl : ts = [] := h
      have hfront : (frontOf finish (t :: rest)).terminal = x := ht.terminal_eq hreserved
      rw [List.nil_append, hfront, beq_self_eq_true, if_pos rfl]
      exact reads_done
  | some n =>
      have hn : Expression 0 n ts := h
      rw [if_neg (by simpa using hn.begins.front.terminal_ne hbegins)]
      exact reads_mapped (expression_reads hn (ht.transfer hx) rfl)

/-! ## Statements -/

def ReadsStatements (bound : Nat) (finish : Location) (statement : Parse Node) : Prop :=
  Completes bound finish statement fun n ts front =>
    Statement false n ts ∧ (n.endsOpen = true → front.terminal ≠ .elseKeyword)

variable {statement : Parse Node}

/-- A list of statements is read up to a closing brace, or to a `return` if none of them is
one. -/
theorem statements_read (h : ReadsStatements bound finish statement) {stops : Token → Bool}
    {ns : List Node} (hns : Sequence (Statement false) ns ts)
    (hstops : ∀ t, stops t = true → t.terminal = .rightBrace ∨
      t.terminal = .returnKeyword ∧ ∀ n ∈ ns, n.isReturn = false)
    (ht : stops t = true) (hlt : (ts ++ t :: rest).length < bound) :
    (items stops toStatement (some <$> statement)).Reads finish ts (t :: rest) ns := by
  have hitem : Completes bound finish (some <$> statement) fun found ts front =>
      (∃ n, found = some n ∧ Statement false n ts ∧ n ∈ ns) ∧ front.terminal ≠ .elseKeyword := by
    rintro found ts rest hlt ⟨⟨n, rfl, hn, -⟩, hfront⟩
    exact completes_some h hlt ⟨n, rfl, hn, fun _ => hfront⟩
  refine items_reads (·.terminal ≠ .elseKeyword) hitem ?_
    (hns.mono fun n hmem ts hn => ⟨hn, hmem⟩) hlt ?_ (.inr ht)
  · rintro n ts ⟨hn, hmem⟩
    obtain ⟨u, us, rfl, hbegins, hreturn⟩ := hn.begins
    refine ⟨u, us, rfl, fun helse => hbegins (by simp [helse]), ?_⟩
    rw [Bool.eq_false_iff]
    intro hu
    rcases hstops u hu with hbrace | ⟨hreturns, hnone⟩
    · exact hbegins (by simp [hbrace])
    · exact absurd (hreturn hreturns) (by rw [hnone n hmem]; exact Bool.false_ne_true)
  · have hterminal : t.terminal = .rightBrace ∨ t.terminal = .returnKeyword :=
      (hstops t ht).imp id And.left
    intro helse
    rw [show t.terminal = .elseKeyword from helse] at hterminal
    exact absurd hterminal (by decide)

section

variable {tested body first second : Node} {semicolon closing : Token} {vs : List Token}

theorem ifStatement_reads_then (h : ReadsStatements bound finish statement)
    (ht : t.Spells .ifKeyword) (htested : Condition tested ts) (hbody : Statement false body us)
    (hlt : (us ++ rest).length < bound)
    (hend : (frontOf finish rest).terminal ≠ .elseKeyword) :
    (ifStatement statement).Reads finish (t :: (ts ++ us)) rest
      (.ifStatement tested body none t.location) := by
  refine reads_spelled ht (by decide) (reads_seq (condition_reads htested) ?_)
  exact reads_then (h hlt ⟨hbody, fun _ => hend⟩) (reads_passed (by decide) hend reads_done)

/-- The statement before an `else` does not take it. -/
theorem ifStatement_reads_else (h : ReadsStatements bound finish statement) {middle : Token}
    (ht : t.Spells .ifKeyword) (htested : Condition tested ts) (hfirst : Statement false first us)
    (hclosed : first.endsOpen = false) (hmiddle : middle.Spells .elseKeyword)
    (hsecond : Statement false second vs) (hlt : (us ++ (middle :: vs ++ rest)).length < bound)
    (hend : second.endsOpen = true → (frontOf finish rest).terminal ≠ .elseKeyword) :
    (ifStatement statement).Reads finish (t :: (ts ++ (us ++ middle :: vs))) rest
      (.ifStatement tested first (some second) t.location) := by
  have hopen : first.endsOpen = true → middle.terminal ≠ .elseKeyword := by
    rw [hclosed]
    exact nofun
  have hlt' : (vs ++ rest).length < bound := by
    simp only [List.length_append, List.length_cons] at hlt ⊢
    omega
  refine reads_spelled ht (by decide) (reads_seq (condition_reads htested) ?_)
  refine reads_seq (h hlt ⟨hfirst, hopen⟩) (reads_accepted hmiddle (by decide) ?_)
  exact reads_then (h hlt' ⟨hsecond, hend⟩) reads_done

theorem whileStatement_reads (h : ReadsStatements bound finish statement)
    (ht : t.Spells .whileKeyword) (htested : Condition tested ts)
    (hbody : Statement false body us) (hlt : (us ++ rest).length < bound)
    (hend : body.endsOpen = true → (frontOf finish rest).terminal ≠ .elseKeyword) :
    (whileStatement statement).Reads finish (t :: (ts ++ us)) rest
      (.whileStatement tested body t.location) := by
  refine reads_spelled ht (by decide) (reads_seq (condition_reads htested) ?_)
  exact reads_then (h hlt ⟨hbody, hend⟩) reads_done

theorem forStatement_reads (h : ReadsStatements bound finish statement)
    {first tested update : Option Node} {opening semicolon' : Token} {ws : List Token}
    (ht : t.Spells .forKeyword) (hopening : opening.Spells .leftParen) (hfirst : Clause first ts)
    (hsemicolon : semicolon.Spells .semicolon) (htested : Clause tested us)
    (hsemicolon' : semicolon'.Spells .semicolon) (hupdate : Clause update vs)
    (hclosing : closing.Spells .rightParen) (hbody : Statement false body ws)
    (hlt : (ws ++ rest).length < bound)
    (hend : body.endsOpen = true → (frontOf finish rest).terminal ≠ .elseKeyword) :
    (forStatement statement).Reads finish
      (t :: opening :: (ts ++ semicolon :: (us ++ semicolon' :: (vs ++ closing :: ws)))) rest
      (.forStatement first tested update body t.location) := by
  refine reads_spelled ht (by decide) (reads_spelled hopening (by decide) ?_)
  apply reads_seq (clause_reads hfirst hsemicolon (by decide) (by decide))
  apply reads_spelled hsemicolon (by decide)
  apply reads_seq (clause_reads htested hsemicolon' (by decide) (by decide))
  apply reads_spelled hsemicolon' (by decide)
  apply reads_seq (clause_reads hupdate hclosing (by decide) (by decide))
  exact reads_spelled hclosing (by decide) (reads_then (h hlt ⟨hbody, hend⟩) reads_done)

theorem printStatement_reads (ht : t.Spells .printKeyword) (hn : Condition n ts)
    (hsemicolon : semicolon.Spells .semicolon) :
    printStatement.Reads finish (t :: (ts ++ [semicolon])) rest (.printStatement n t.location) :=
  reads_spelled ht (by decide) (reads_seq (condition_reads hn)
    (reads_spelled hsemicolon (by decide) reads_done))

theorem returnStatement_reads (ht : t.Spells .returnKeyword) (hn : Expression 0 n ts)
    (hsemicolon : semicolon.Spells .semicolon) :
    returnStatement.Reads finish (t :: (ts ++ [semicolon])) rest
      (.returnStatement n t.location) := by
  refine reads_spelled ht (by decide) (reads_seq ?_ (reads_spelled hsemicolon (by decide)
    reads_done))
  exact expression_reads hn (hsemicolon.transfer (by decide)) rfl

theorem block_reads (h : ReadsStatements bound finish statement) {ns : List Node}
    (ht : t.Spells .leftBrace) (hns : Sequence (Statement false) ns ts)
    (hclosing : closing.Spells .rightBrace) (hlt : (ts ++ closing :: rest).length < bound) :
    (block statement).Reads finish (t :: (ts ++ [closing])) rest (.block ns t.location) := by
  refine reads_spelled ht (by decide) (reads_seq ?_ (reads_spelled hclosing (by decide)
    reads_done))
  refine statements_read h hns (fun u hu => .inl (beq_iff_eq.1 hu)) ?_ hlt
  exact beq_iff_eq.2 (hclosing.terminal_eq (by decide))

theorem statementOf_reads_other (ht : t.terminal ∉ Terminal.statementOpeners)
    (h : (if t.kind = .dataType then declarationStatement else expressionStatement).Reads finish
      (t :: ts) rest n) : (statementOf statement).Reads finish (t :: ts) rest n := by
  refine reads_front (t := t) ?_ rfl
  split
  · next hterminal => exact absurd (by rw [hterminal]; decide) ht
  · next hterminal => exact absurd (by rw [hterminal]; decide) ht
  · next hterminal => exact absurd (by rw [hterminal]; decide) ht
  · next hterminal => exact absurd (by rw [hterminal]; decide) ht
  · next hterminal => exact absurd (by rw [hterminal]; decide) ht
  · next hterminal => exact absurd (by rw [hterminal]; decide) ht
  · exact h

theorem statementOf_reads_declaration (hn : Declaration n (t :: ts)) (ht : DataType t)
    (hsemicolon : semicolon.Spells .semicolon) :
    (statementOf statement).Reads finish (t :: (ts ++ [semicolon])) rest n := by
  refine statementOf_reads_other ?_ ?_
  · have hdisjoint : ∀ x ∈ Terminal.dataTypes, x ∉ Terminal.statementOpeners := by
      decide
    exact hdisjoint _ ht.terminal_mem
  · rw [if_pos ht.kind_eq]
    exact reads_seq_cons (declaration_reads hn)
      (reads_spelled hsemicolon (by decide) reads_done)

theorem statementOf_reads_expression (hn : Expression 0 n ts)
    (hsemicolon : semicolon.Spells .semicolon) :
    (statementOf statement).Reads finish (ts ++ [semicolon]) rest n := by
  obtain ⟨t, us, rfl, hkind, hopener⟩ := hn.begins
  refine statementOf_reads_other ?_ ?_
  · have hdisjoint : ∀ x ∈ Terminal.openers, x ∉ Terminal.statementOpeners := by
      decide
    exact hdisjoint _ hopener
  · rw [if_neg hkind]
    exact reads_seq_cons (expression_reads hn (hsemicolon.transfer (by decide)) rfl)
      (reads_accepted hsemicolon (by decide) reads_done)

end

/-- A statement is read unless an `else` follows that would belong to it. -/
theorem statement_completes (bound : Nat) (finish : Location) :
    ReadsStatements bound finish Grammar.statement := by
  let related := fun (_ : Unit) n ts (front : Token) =>
    Statement false n ts ∧ (n.endsOpen = true → front.terminal ≠ .elseKeyword)
  refine completes_fix related ?_ bound ()
  rintro self bound hself _ n ts rest hbound ⟨hn, hend⟩
  have hself : ReadsStatements bound finish (self ()) := hself ()
  cases hn with
  | declaration hn ht hsemicolon => exact statementOf_reads_declaration hn ht hsemicolon
  | @ifThen tested body t ts us ht htested hbody =>
      refine reads_front (t := t) ?_ rfl
      rw [ht.terminal_eq (by decide)]
      refine ifStatement_reads_then hself ht htested hbody ?_ (hend rfl)
      simp only [List.length_append, List.length_cons] at hbound ⊢
      omega
  | @ifElse tested first second t ts us middle vs ht htested hfirst hclosed hmiddle hsecond =>
      refine reads_front (t := t) ?_ rfl
      rw [ht.terminal_eq (by decide)]
      refine ifStatement_reads_else hself ht htested hfirst hclosed hmiddle hsecond ?_ hend
      simp only [List.length_append, List.length_cons] at hbound ⊢
      omega
  | @whileLoop tested body t ts us ht htested hbody =>
      refine reads_front (t := t) ?_ rfl
      rw [ht.terminal_eq (by decide)]
      refine whileStatement_reads hself ht htested hbody ?_ hend
      simp only [List.length_append, List.length_cons] at hbound ⊢
      omega
  | @forLoop _ _ _ _ t _ _ _ _ _ _ _ _ ht hopening hfirst hsemicolon htested hsemicolon'
      hupdate hclosing hbody =>
      refine reads_front (t := t) ?_ rfl
      rw [ht.terminal_eq (by decide)]
      refine forStatement_reads hself ht hopening hfirst hsemicolon htested hsemicolon' hupdate
        hclosing hbody ?_ hend
      simp only [List.length_append, List.length_cons] at hbound ⊢
      omega
  | @print _ t _ _ ht hn hsemicolon =>
      refine reads_front (t := t) ?_ rfl
      rw [ht.terminal_eq (by decide)]
      exact printStatement_reads ht hn hsemicolon
  | @«return» _ t _ _ ht hn hsemicolon =>
      refine reads_front (t := t) ?_ rfl
      rw [ht.terminal_eq (by decide)]
      exact returnStatement_reads ht hn hsemicolon
  | @block _ t _ _ ht hns hclosing =>
      refine reads_front (t := t) ?_ rfl
      rw [ht.terminal_eq (by decide)]
      apply block_reads hself ht hns hclosing
      simp only [List.length_append, List.length_cons] at hbound ⊢
      omega
  | expression hn hsemicolon => exact statementOf_reads_expression hn hsemicolon
  | bare hloose => exact absurd hloose Bool.false_ne_true

end Grammar

end MiniJava
