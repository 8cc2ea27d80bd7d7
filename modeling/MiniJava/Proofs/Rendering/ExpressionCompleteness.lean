import MiniJava.Proofs.Rendering.Complete
/-!
# Expressions written are expressions read

The productions of expressions read every rendering, if what follows it does not go on with
it: after a name there is neither another name nor an opening parenthesis or bracket, after
an operand there is no dot either, and after an expression no operator.
-/

namespace MiniJava

/-- The terminals that an expression may begin with, names and most literals being
unreserved. -/
def Terminal.openers : List Terminal :=
  [.unreserved, .trueLiteral, .falseLiteral, .thisKeyword, .newKeyword, .lengthKeyword, .not,
    .leftParen]

namespace Lexeme

def EndsName (l : Lexeme) : Prop :=
  l.kind ≠ .identifier ∧ l.terminal ≠ .leftParen ∧ l.terminal ≠ .leftBracket

def EndsOperand (l : Lexeme) : Prop := l.EndsName ∧ l.terminal ≠ .dot

def EndsExpression (l : Lexeme) : Prop := l.EndsOperand ∧ l.precedence < 0

def BeginsExpression (l : Lexeme) : Prop :=
  l.kind ≠ .dataType ∧ l.terminal ∈ Terminal.openers

instance (l : Lexeme) : Decidable l.EndsName := inferInstanceAs (Decidable (_ ∧ _))
instance (l : Lexeme) : Decidable l.EndsOperand := inferInstanceAs (Decidable (_ ∧ _))
instance (l : Lexeme) : Decidable l.EndsExpression := inferInstanceAs (Decidable (_ ∧ _))
instance (l : Lexeme) : Decidable l.BeginsExpression := inferInstanceAs (Decidable (_ ∧ _))

theorem BeginsExpression.terminal_ne {l : Lexeme} {x : Terminal} (h : l.BeginsExpression)
    (hx : x ∉ Terminal.openers) : l.terminal ≠ x := by
  rintro rfl
  exact hx h.2

end Lexeme

theorem Lexeme.beginsExpression_of_unreserved {l : Lexeme} (hterminal : l.terminal = .unreserved)
    (hkind : l.kind ≠ .dataType) : l.BeginsExpression :=
  ⟨hkind, by rw [hterminal]; decide⟩

theorem Token.Spells.transfer {t : Token} {x : Terminal} (h : t.Spells x)
    {property : Lexeme → Prop} (hx : property x.lexeme) : property t.toLexeme := h ▸ hx

theorem Token.Spells.terminal_ne {t : Token} {x y : Terminal} (h : t.Spells x)
    (hx : x.lexeme.terminal ≠ y) : t.terminal ≠ y :=
  fun ht => hx ((congrArg Lexeme.terminal h).symm.trans ht)

theorem Token.Spells.kind_ne {t : Token} {x : Terminal} {k : TokenKind} (h : t.Spells x)
    (hx : x.lexeme.kind ≠ k) : t.kind ≠ k :=
  fun ht => hx ((congrArg Lexeme.kind h).symm.trans ht)

theorem Token.Names.kind_eq {t : Token} {name : String} (h : t.Names name) :
    t.kind = .identifier := congrArg Lexeme.kind h

theorem Token.Names.terminal_eq {t : Token} {name : String} (h : t.Names name) :
    t.terminal = .unreserved := congrArg Lexeme.terminal h

theorem Token.Names.text_eq {t : Token} {name : String} (h : t.Names name) : t.text = name :=
  congrArg Lexeme.text h

namespace BinaryOperator

variable {op : BinaryOperator}

theorem ne_member_of_precedence (h : 0 ≤ op.precedence) : op ≠ .member := by
  rintro rfl
  exact absurd h (by decide)

theorem endsOperand (h : 0 ≤ op.precedence) : op.terminal.lexeme.EndsOperand := by
  have hop := ne_member_of_precedence h
  cases op with
  | member => exact absurd rfl hop
  | _ => decide

theorem binaryOperator?_terminal (h : 0 ≤ op.precedence) :
    Grammar.binaryOperator? op.terminal = some op := by
  have hop := ne_member_of_precedence h
  cases op with
  | member => exact absurd rfl hop
  | _ => rfl

end BinaryOperator

def TokenKind.isValue : TokenKind → Bool
  | .integer | .real | .charLiteral | .stringLiteral | .boolean => true
  | _ => false

theorem Literal.WrittenAs.value_eq {value : Literal} {t : Token} (h : value.WrittenAs t) :
    t.kind.isValue = true ∧ t.toLexeme.BeginsExpression ∧
      Grammar.literalValue? t = some value := by
  have hliteral : ∀ {k text payload}, k ≠ .dataType →
      (Lexeme.literal k text payload).BeginsExpression :=
    fun hk => Lexeme.beginsExpression_of_unreserved rfl hk
  unfold Grammar.literalValue?
  cases value with
  | integer n =>
      obtain ⟨-, text, ht⟩ := h
      rw [ht]
      exact ⟨rfl, hliteral (by decide), rfl⟩
  | real x =>
      obtain ⟨text, ht⟩ := h
      rw [ht]
      exact ⟨rfl, hliteral (by decide), rfl⟩
  | char c =>
      rw [show t.toLexeme = _ from h]
      refine ⟨rfl, hliteral (by decide), ?_⟩
      simp [Lexeme.literal]
  | string s =>
      rw [show t.toLexeme = _ from h]
      exact ⟨rfl, hliteral (by decide), rfl⟩
  | boolean b =>
      have ht : t.Spells (if b then .trueLiteral else .falseLiteral) := h
      rw [ht]
      cases b <;> decide

namespace Rendering

/-! ## First tokens -/

def Begins (ts : List Token) : Prop := ∃ t us, ts = t :: us ∧ t.toLexeme.BeginsExpression

theorem Begins.append {ts : List Token} (h : Begins ts) (us : List Token) : Begins (ts ++ us) := by
  obtain ⟨t, vs, rfl, ht⟩ := h
  exact ⟨t, vs ++ us, rfl, ht⟩

theorem Begins.front {finish : Location} {ts us : List Token} (h : Begins ts) :
    (Grammar.Parse.frontOf finish (ts ++ us)).toLexeme.BeginsExpression := by
  obtain ⟨t, vs, rfl, ht⟩ := h
  exact ht

theorem Named.eq_cons {n : Node} {ts : List Token} (h : Named n ts) :
    ∃ t us name, ts = t :: us ∧ t.Names name := by
  cases h with
  | plain ht => exact ⟨_, _, _, rfl, ht⟩
  | call ht => exact ⟨_, _, _, rfl, ht⟩
  | index ht => exact ⟨_, _, _, rfl, ht⟩
  | declaration ht => exact ⟨_, _, _, rfl, ht⟩
  | arrayDeclaration ht => exact ⟨_, _, _, rfl, ht⟩

theorem Named.begins {n : Node} {ts : List Token} (h : Named n ts) : Begins ts := by
  obtain ⟨t, us, name, rfl, ht⟩ := h.eq_cons
  refine ⟨t, us, rfl, ?_⟩
  rw [show t.toLexeme = _ from ht]
  exact Lexeme.beginsExpression_of_unreserved rfl (show TokenKind.identifier ≠ _ by decide)

theorem Arguments.eq_cons {ns : List Node} {ts : List Token} (h : Arguments ns ts) :
    ∃ t us, ts = t :: us ∧ t.Spells .leftParen := by
  cases h with
  | none ht => exact ⟨_, _, rfl, ht⟩
  | some ht => exact ⟨_, _, rfl, ht⟩

theorem Primary.begins {n : Node} {ts : List Token} (h : Primary n ts) : Begins ts := by
  cases h with
  | literal ht => exact ⟨_, _, rfl, ht.value_eq.2.1⟩
  | this ht => exact ⟨_, _, rfl, ht.transfer (by decide)⟩
  | length ht => exact ⟨_, _, rfl, ht.transfer (by decide)⟩
  | named hn => exact hn.begins
  | parenthesised ht => exact ⟨_, _, rfl, ht.transfer (by decide)⟩
  | array ht => exact ⟨_, _, rfl, ht.transfer (by decide)⟩
  | object ht => exact ⟨_, _, rfl, ht.transfer (by decide)⟩

theorem Accessed.begins {n : Node} {ts : List Token} (h : Accessed n ts) : Begins ts := by
  induction h using Accessed.chain with
  | primary hn => exact hn.begins
  | member _ _ _ ih => exact ih.append _

theorem Operand.begins {n : Node} {ts : List Token} (h : Operand n ts) : Begins ts := by
  cases h with
  | accessed hn => exact hn.begins
  | negation ht => exact ⟨_, _, rfl, ht.transfer (by decide)⟩

theorem Expression.begins {least : Int} {n : Node} {ts : List Token}
    (h : Expression least n ts) : Begins ts := by
  induction h using Expression.chain with
  | operand hn => exact hn.begins
  | binary _ _ _ _ ih => exact ih.append _

theorem Separated.begins {ns : List Node} {ts : List Token}
    (h : Separated (Expression 0) ns ts) : Begins ts := by
  cases h with
  | one hn => exact hn.begins
  | more hn => exact hn.begins.append _

end Rendering

namespace Grammar

open Parse Rendering

variable {finish : Location} {bound : Nat} {operand : Parse Node} {n : Node}
  {ts us rest : List Token}

def ReadsOperands (bound : Nat) (finish : Location) (operand : Parse Node) : Prop :=
  Completes bound finish operand fun n ts front => Operand n ts ∧ front.toLexeme.EndsOperand

/-! ## Chains of operators -/

theorem climb_reads_stop {least : Int} {left : Node}
    (h : (frontOf finish (ts ++ rest)).precedence < least ∨
      (frontOf finish (ts ++ rest)).precedence < 0) :
    (climb operand (least, left)).Reads finish ts rest n ↔ ts = [] ∧ n = left := by
  rw [climb, reads_fix, reads_current_bind]
  dsimp only
  rw [if_pos h, reads_pure]

/-- An operator that binds tightly enough takes the chain of tighter operators after it as
its right side. -/
theorem climb_reads_go {least : Int} {op : BinaryOperator} {left first right : Node} {t : Token}
    {ss vs : List Token} (ht : t.Spells op.terminal) (hop : 0 ≤ op.precedence)
    (hleast : least ≤ op.precedence)
    (hfirst : operand.Reads finish ss (vs ++ (us ++ rest)) first)
    (hright : (climb operand (op.precedence + 1, first)).Reads finish vs (us ++ rest) right)
    (hdone : (climb operand (least, .binary op left right t.location)).Reads finish us rest n) :
    (climb operand (least, left)).Reads finish (t :: (ss ++ (vs ++ us))) rest n := by
  have hreserved : op.terminal ≠ .unreserved := by
    cases op <;> decide
  have hterminal := ht.terminal_eq hreserved
  have hprecedence : t.precedence = op.precedence := congrArg Lexeme.precedence ht
  have hlength : ∀ ws : List Token, ws.length ≤ (vs ++ (us ++ rest)).length →
      ws.length < (t :: (ss ++ (vs ++ us)) ++ rest).length := by
    intro ws hws
    simp only [List.length_append, List.length_cons] at hws ⊢
    omega
  rw [climb, reads_fix, ← climb]
  refine reads_front (t := t) ?_ rfl
  dsimp only
  rw [hprecedence, if_neg (by omega), hterminal, BinaryOperator.binaryOperator?_terminal hop]
  rw [← List.append_assoc] at hfirst
  refine reads_taken (reads_seq hfirst (reads_current_bind.2 ?_))
  have hagain := reads_below.2 ⟨hlength (us ++ rest) (by simp), hdone⟩
  rw [List.append_assoc]
  split
  · exact reads_seq (reads_below.2 ⟨hlength _ (Nat.le_refl _), hright⟩) hagain
  · next hlooser =>
    obtain ⟨rfl, rfl⟩ := (climb_reads_stop (.inl (by omega))).1 hright
    exact reads_seq reads_done hagain

/-- Reading an operand and what follows it reads an expression, where going on after the
expression reads the rest. -/
theorem climb_reads (h : ReadsOperands bound finish operand) {p q : Int} {m : Node}
    (hn : Expression p n ts) (hq : 0 ≤ q) (hqp : q ≤ p)
    (hlt : (ts ++ (us ++ rest)).length < bound)
    (hends : (frontOf finish (us ++ rest)).toLexeme.EndsOperand)
    (hlooser : (frontOf finish (us ++ rest)).precedence ≤ p)
    (hdone : (climb operand (q, n)).Reads finish us rest m) :
    (operand >>= fun first => climb operand (q, first)).Reads finish (ts ++ us) rest m := by
  induction hn using Expression.chain generalizing q m us rest with
  | operand hn => exact reads_seq (h hlt ⟨hn, hends⟩) hdone
  | @binary p op left right t ts vs hp _ ht _ ihleft ihright =>
      have hop : 0 ≤ op.precedence := by omega
      have hprecedence : t.precedence = op.precedence := congrArg Lexeme.precedence ht
      simp only [List.append_assoc, List.cons_append] at hlt ⊢
      -- The right side is read by an operand and the tighter operators after it.
      have hstop : (climb operand (op.precedence + 1, right)).Reads finish [] (us ++ rest) right :=
        (climb_reads_stop (.inl (by rw [List.nil_append]; omega))).2 ⟨rfl, rfl⟩
      have hinner := @ihright [] (us ++ rest) _ _ (by omega) (Int.le_refl _)
        (by simp at hlt ⊢; omega) hends (by rw [List.nil_append]; omega) hstop
      rw [List.append_nil] at hinner
      obtain ⟨first, vs, o, rfl, hfirst, hrest⟩ := reads_bind.1 hinner
      refine ihleft hq (by omega) (by simpa using hlt)
        (ht.transfer (BinaryOperator.endsOperand hop)) (Int.le_of_eq hprecedence) ?_
      rw [List.append_assoc]
      exact climb_reads_go ht hop (by omega) hfirst hrest hdone

theorem expressionOf_completes (h : ReadsOperands bound finish operand) :
    Completes bound finish (expressionOf operand) fun n ts front =>
      Expression 0 n ts ∧ front.toLexeme.EndsExpression := by
  rintro n ts rest hlt ⟨hn, hends, hfront⟩
  have hstop : (climb operand (0, n)).Reads finish [] rest n :=
    (climb_reads_stop (.inr hfront)).2 ⟨rfl, rfl⟩
  rw [← List.append_nil ts]
  exact climb_reads h hn (Int.le_refl 0) (Int.le_refl 0) hlt hends (Int.le_of_lt hfront) hstop

/-! ## Names, calls and allocations -/

theorem arguments_completes (h : ReadsOperands bound finish operand) :
    Completes (bound + 1) finish (arguments operand) fun ns ts _ => Arguments ns ts := by
  intro ns ts rest hlt hns
  cases hns with
  | none hopening hclosing =>
      exact reads_spelled hopening (by decide) (reads_accepted hclosing (by decide) reads_done)
  | @some _ opening ts closing hopening hseparated hclosing =>
      refine reads_spelled hopening (by decide) (reads_passed (by decide) ?_ ?_)
      · rw [List.append_assoc]
        exact hseparated.begins.front.terminal_ne (by decide)
      · refine reads_seq ?_ (reads_spelled hclosing (by decide) reads_done)
        refine completes_commaSeparated _ (fun t ht => ht.transfer (by decide))
          (expressionOf_completes h) ?_ ⟨hseparated, hclosing.transfer (by decide),
            hclosing.terminal_ne (by decide)⟩
        simp only [List.length_append, List.length_cons] at hlt ⊢
        omega

theorem expressionOf_reads_closed (h : ReadsOperands bound finish operand) {closing : Token}
    {x : Terminal} (hn : Expression 0 n ts) (hclosing : closing.Spells x)
    (hx : x.lexeme.EndsExpression) (hlt : (ts ++ ([closing] ++ rest)).length < bound) :
    (expressionOf operand).Reads finish ts ([closing] ++ rest) n :=
  expressionOf_completes h hlt ⟨hn, hclosing.transfer hx⟩

theorem named_completes (h : ReadsOperands bound finish operand) :
    Completes (bound + 1) finish (named operand) fun n ts front =>
      Named n ts ∧ front.toLexeme.EndsName := by
  rintro n ts rest hlt ⟨hn, hkind, hparen, hbracket⟩
  -- What follows the name decides; neither a name nor a parenthesis is a bracket.
  have hopened : ∀ {t u : Token} {us : List Token} {m : Node}, t.Names t.text →
      u.Spells .leftBracket → (bracketed operand t).Reads finish us rest m →
      (named operand).Reads finish (t :: u :: us) rest m := by
    intro t u us m ht hu hm
    refine reads_named ht (reads_front (t := u) ?_ rfl)
    rw [if_neg (hu.kind_ne (by decide)), if_neg (hu.terminal_ne (by decide))]
    exact reads_accepted hu (by decide) hm
  cases hn with
  | @plain name t ht =>
      obtain rfl := ht.text_eq
      refine reads_named ht (reads_current_bind.2 ?_)
      rw [List.nil_append, if_neg hkind, if_neg hparen]
      exact reads_passed (by decide) hbracket reads_done
  | @call name ns t ts ht harguments =>
      obtain rfl := ht.text_eq
      have hlt' : (ts ++ rest).length < bound + 1 := by
        simp only [List.length_append, List.length_cons] at hlt ⊢
        omega
      obtain ⟨u, us, rfl, hu⟩ := harguments.eq_cons
      refine reads_named ht (reads_front (t := u) ?_ rfl)
      rw [if_neg (hu.kind_ne (by decide)), if_pos (hu.terminal_eq (by decide))]
      exact reads_then (arguments_completes h hlt' harguments) reads_done
  | @index name n t opening ts closing ht hopening hn hclosing =>
      obtain rfl := ht.text_eq
      refine hopened ht hopening (reads_passed (by decide) ?_ ?_)
      · rw [List.append_assoc]
        exact hn.begins.front.terminal_ne (by decide)
      · refine reads_seq ?_ (reads_spelled hclosing (by decide) reads_done)
        apply expressionOf_reads_closed h hn hclosing (by decide)
        simp only [List.length_append, List.length_cons] at hlt ⊢
        omega
  | @declaration type name t u ht hu =>
      obtain rfl := ht.text_eq
      obtain rfl := hu.text_eq
      refine reads_named ht (reads_front (t := u) ?_ rfl)
      rw [if_pos hu.kind_eq]
      exact reads_taken reads_done
  | @arrayDeclaration type name t opening closing u ht hopening hclosing hu =>
      obtain rfl := ht.text_eq
      refine hopened ht hopening (reads_accepted hclosing (by decide) ?_)
      exact reads_identified hu reads_done

theorem allocatedType_reads {type : Token} (h : ElementType type) :
    allocatedType.Reads finish [type] rest type := by
  refine reads_front (t := type) ?_ rfl
  split
  · exact reads_advance
  · next hkind =>
    rcases h with ⟨x, hx, htype⟩ | htype
    · exact absurd ((congrArg Lexeme.kind htype).trans hx) hkind
    · exact (reads_expectKind (by decide)).2 ⟨rfl, htype.kind_eq⟩

theorem allocation_reads_array (h : ReadsOperands bound finish operand)
    {t type opening closing : Token} (ht : t.Spells .newKeyword) (htype : ElementType type)
    (hopening : opening.Spells .leftBracket) (hn : Expression 0 n ts)
    (hclosing : closing.Spells .rightBracket)
    (hlt : (ts ++ ([closing] ++ rest)).length < bound) :
    (allocation operand).Reads finish (t :: type :: opening :: (ts ++ [closing])) rest
      (.newArray (type.text ++ "[]") n t.location) := by
  refine reads_spelled ht (by decide) (reads_seq_one (allocatedType_reads htype) ?_)
  refine reads_accepted hopening (by decide) (reads_seq ?_ (reads_spelled hclosing (by decide)
    reads_done))
  exact expressionOf_reads_closed h hn hclosing (by decide) hlt

theorem allocation_reads_object (h : ReadsOperands bound finish operand) {t type : Token}
    {name : String} {ns : List Node} (ht : t.Spells .newKeyword) (htype : type.Names name)
    (hns : Arguments ns ts) (hlt : (ts ++ rest).length < bound + 1) :
    (allocation operand).Reads finish (t :: type :: ts) rest
      (.newObject name (.methodCall name ns type.location) t.location) := by
  obtain rfl := htype.text_eq
  obtain ⟨opening, us, rfl, hopening⟩ := hns.eq_cons
  refine reads_spelled ht (by decide) (reads_seq_one (allocatedType_reads (.inr htype)) ?_)
  refine reads_passed (by decide) (hopening.terminal_ne (by decide)) ?_
  rw [if_neg Bool.false_ne_true, if_neg (by rw [htype.kind_eq]; decide)]
  exact reads_then (arguments_completes h hlt hns) reads_done

/-! ## Operands -/

theorem memberName_completes (h : ReadsOperands bound finish operand) :
    Completes (bound + 1) finish (memberName operand) fun n ts front =>
      Member n ts ∧ front.toLexeme.EndsName := by
  rintro n ts rest hlt ⟨hn, hfront⟩
  cases hn with
  | @length t ht =>
      refine reads_front (t := t) ?_ rfl
      rw [if_pos (ht.terminal_eq (by decide))]
      exact reads_spelled ht (by decide) reads_done
  | named hn =>
      obtain ⟨t, us, name, rfl, ht⟩ := hn.eq_cons
      refine reads_front (t := t) ?_ rfl
      rw [if_neg (by rw [ht.terminal_eq]; decide), if_pos ht.kind_eq]
      exact named_completes h hlt ⟨hn, hfront⟩

section

variable {t : Token}

theorem primary_reads_keyword (ht : t.kind = .keyword)
    (h : (keywordPrimary operand t).Reads finish (t :: ts) rest n) :
    (primary operand).Reads finish (t :: ts) rest n := by
  refine reads_front (t := t) ?_ rfl
  rw [ht]
  exact h

theorem primary_reads_literal {value : Literal} (ht : value.WrittenAs t) :
    (primary operand).Reads finish [t] rest (.literal value t.location) := by
  obtain ⟨hkind, -, hvalue⟩ := ht.value_eq
  have hliteral : literal.Reads finish [t] rest (.literal value t.location) := by
    apply reads_taken
    rw [hvalue]
    exact reads_done
  refine reads_front (t := t) ?_ rfl
  revert hkind
  cases t.kind with
  | integer => exact fun _ => hliteral
  | real => exact fun _ => hliteral
  | charLiteral => exact fun _ => hliteral
  | stringLiteral => exact fun _ => hliteral
  | boolean => exact fun _ => hliteral
  | _ => exact fun hkind => absurd hkind Bool.false_ne_true

end

theorem primary_completes (h : ReadsOperands bound finish operand) :
    Completes (bound + 1) finish (primary operand) fun n ts front =>
      Primary n ts ∧ front.toLexeme.EndsName := by
  rintro n ts rest hlt ⟨hn, hfront⟩
  have hkeyword : ∀ {t : Token} {x : Terminal}, t.Spells x → x.lexeme.kind = .keyword →
      t.kind = .keyword := fun ht hx => (congrArg Lexeme.kind ht).trans hx
  cases hn with
  | literal ht => exact primary_reads_literal ht
  | @this t ht =>
      apply primary_reads_keyword (hkeyword ht (by decide))
      rw [keywordPrimary, ht.terminal_eq (by decide)]
      exact reads_taken reads_done
  | @length t ht =>
      apply primary_reads_keyword (hkeyword ht (by decide))
      rw [keywordPrimary, ht.terminal_eq (by decide)]
      exact reads_spelled ht (by decide) reads_done
  | named hn =>
      obtain ⟨t, us, name, rfl, ht⟩ := hn.eq_cons
      refine reads_front (t := t) ?_ rfl
      rw [ht.kind_eq]
      exact named_completes h hlt ⟨hn, hfront⟩
  | @parenthesised _ opening ts closing hopening hn hclosing =>
      refine reads_front (t := opening) ?_ rfl
      rw [show opening.kind = .delimiter from congrArg Lexeme.kind hopening]
      dsimp only
      rw [if_pos (hopening.terminal_eq (by decide))]
      refine reads_spelled hopening (by decide) (reads_seq ?_ (reads_spelled hclosing (by decide)
        reads_done))
      apply expressionOf_reads_closed h hn hclosing (by decide)
      simp only [List.length_append, List.length_cons] at hlt ⊢
      omega
  | array ht htype hopening hn hclosing =>
      apply primary_reads_keyword (hkeyword ht (by decide))
      rw [keywordPrimary, ht.terminal_eq (by decide)]
      apply allocation_reads_array h ht htype hopening hn hclosing
      simp only [List.length_append, List.length_cons] at hlt ⊢
      omega
  | object ht htype hns =>
      apply primary_reads_keyword (hkeyword ht (by decide))
      rw [keywordPrimary, ht.terminal_eq (by decide)]
      apply allocation_reads_object h ht htype hns
      simp only [List.length_append, List.length_cons] at hlt ⊢
      omega

theorem members_reads_stop {left : Node} (h : (frontOf finish rest).terminal ≠ .dot) :
    (members operand left).Reads finish [] rest left := by
  rw [members, reads_fix, reads_current_bind]
  dsimp only [List.nil_append]
  rw [if_neg h]
  exact reads_done

theorem members_reads_go {left member : Node} {t : Token} {ss : List Token} (ht : t.Spells .dot)
    (hmember : (memberName operand).Reads finish ss (us ++ rest) member)
    (hdone : (members operand (.binary .member left member t.location)).Reads finish us rest n) :
    (members operand left).Reads finish (t :: (ss ++ us)) rest n := by
  rw [members, reads_fix, ← members]
  refine reads_front (t := t) ?_ rfl
  rw [if_pos (ht.terminal_eq (by decide))]
  refine reads_taken (reads_seq hmember (reads_below.2 ⟨?_, hdone⟩))
  simp only [List.length_append, List.length_cons]
  omega

/-- Reading a primary and what follows it reads an operand without negation, where going on
after the operand reads the rest. -/
theorem members_reads (h : ReadsOperands bound finish operand) {m : Node} (hn : Accessed n ts)
    (hlt : (ts ++ (us ++ rest)).length < bound + 1)
    (hends : (frontOf finish (us ++ rest)).toLexeme.EndsName)
    (hdone : (members operand n).Reads finish us rest m) :
    (primary operand >>= members operand).Reads finish (ts ++ us) rest m := by
  induction hn using Accessed.chain generalizing m us rest with
  | primary hn => exact reads_seq (primary_completes h hlt ⟨hn, hends⟩) hdone
  | member _ ht hright ih =>
      rw [List.append_assoc, List.cons_append]
      apply ih (by simpa using hlt) (ht.transfer (by decide))
      refine members_reads_go ht (memberName_completes h ?_ ⟨hright, hends⟩) hdone
      simp only [List.length_append, List.length_cons] at hlt ⊢
      omega

theorem operand_completes (bound : Nat) (finish : Location) :
    ReadsOperands bound finish Grammar.operand := by
  let related := fun (_ : Unit) n ts (front : Token) => Operand n ts ∧ front.toLexeme.EndsOperand
  refine completes_fix related ?_ bound ()
  rintro self bound hself _ n ts rest rfl ⟨hn, hends, hdot⟩
  have hself : ReadsOperands (ts ++ rest).length finish (self ()) := hself ()
  have hstop : ∀ left, (members (self ()) left).Reads finish [] rest left :=
    fun left => members_reads_stop hdot
  cases hn with
  | accessed hn =>
      rw [← List.append_nil ts]
      exact members_reads hself hn (Nat.lt_succ_self _) hends (hstop n)
  | @negation n t ts ht hn =>
      refine reads_then (reads_front (t := t) ?_ rfl) (hstop _)
      rw [show t.kind = .operator from congrArg Lexeme.kind ht]
      dsimp only
      rw [if_pos (ht.terminal_eq (by decide))]
      refine reads_spelled ht (by decide) (reads_then (hself ?_ ⟨hn, hends, hdot⟩) reads_done)
      simp

/-- An expression is read where it ends. -/
theorem expression_reads {t : Token} (hn : Expression 0 n ts) (ht : t.toLexeme.EndsExpression)
    (hfront : frontOf finish rest = t) : expression.Reads finish ts rest n :=
  expressionOf_completes (operand_completes _ finish) (Nat.lt_succ_self _) ⟨hn, hfront ▸ ht⟩

end Grammar

end MiniJava
