import MiniJava.Proofs.Grammar.Braces
import MiniJava.Grammar.Program
/-!
# Containment

No run of a production, whether it fails or not, reads a `class` at the depth of braces
where it began, nor closes a brace that it did not open; only a class declaration begins
with one.
-/

namespace MiniJava

def Terminal.isInner : Terminal → Bool
  | .unreserved | .lengthKeyword | .thisKeyword | .newKeyword | .doubleType | .intType
  | .charType | .stringType | .booleanType | .trueLiteral | .falseLiteral | .leftParen
  | .rightParen | .leftBracket | .rightBracket | .comma | .assign | .and | .lessThan | .plus
  | .minus | .times | .dot | .not => true
  | _ => false

namespace Token

def Inner (t : Token) : Prop := t.terminal.isInner = true

variable {t : Token}

theorem Inner.ne (h : t.Inner) {x : Terminal} (hx : x.isInner = false) : t.terminal ≠ x := by
  rintro rfl
  exact absurd (h.symm.trans hx) (by decide)

theorem Inner.plain (h : t.Inner) : t.Plain := ⟨h.ne rfl, h.ne rfl, h.ne rfl⟩

theorem Names.inner {name : String} (h : t.Names name) : t.Inner := by
  have ht : t.terminal = .unreserved := congrArg Lexeme.terminal h
  rw [Inner, ht]
  rfl

theorem Spells.inner {x : Terminal} (h : t.Spells x) (hx : x ≠ .unreserved)
    (hinner : x.isInner = true) : t.Inner := by
  rw [Inner, h.terminal_eq hx]
  exact hinner

namespace WellFormed

theorem inner_of (h : t.WellFormed) {P : Lexeme → Prop} (ht : ¬ P t.toLexeme)
    (hP : ∀ x : Terminal, x.isInner = false → P x.lexeme) : t.Inner := by
  rw [Inner, ← Bool.not_eq_false]
  intro hinner
  have hx : t.terminal ≠ .unreserved := by
    rintro hx
    rw [hx] at hinner
    exact absurd hinner (by decide)
  have hspells : t.toLexeme = t.terminal.lexeme := h.spells hx rfl
  exact ht (hspells ▸ hP _ hinner)

theorem inner_of_kind (h : t.WellFormed) (hkeyword : t.kind ≠ .keyword)
    (hdelimiter : t.kind ≠ .delimiter) : t.Inner := by
  refine h.inner_of (P := fun l => l.kind = .keyword ∨ l.kind = .delimiter)
    (not_or.2 ⟨hkeyword, hdelimiter⟩) ?_
  intro x
  cases x <;> decide

theorem inner_of_precedence (h : t.WellFormed) (ht : 0 ≤ t.precedence) : t.Inner := by
  refine h.inner_of (P := fun l => l.precedence < 0) (Int.not_lt.2 ht) ?_
  intro x
  cases x <;> decide

end WellFormed

end Token

namespace Grammar

open Parse

structure Admits (read : List Token → Prop) : Prop extends Additive read where
  inner : ∀ {t}, t.Inner → read [t]

/-- A property of token lists that no plain token spoils. -/
structure Tolerant (read : List Token → Prop) : Prop extends Additive read where
  plain : ∀ {t}, t.Plain → read [t]

theorem tolerant_guarded (level : Int) : Tolerant (Guarded 0 level) where
  toAdditive := Guarded.additive level
  plain := Guarded.of_plain

theorem Tolerant.admits {read : List Token → Prop} (h : Tolerant read) : Admits read where
  toAdditive := h.toAdditive
  inner ht := h.plain ht.plain

/-- No brace and no `class` is no harm at all. -/
theorem Tolerant.unbraced {read : List Token → Prop} (h : Tolerant read) {ts : List Token}
    (hts : Unbraced ts) : read ts := by
  induction ts with
  | nil => exact h.nil
  | cons t ts ih =>
      obtain ⟨ht, hts⟩ := List.forall_mem_cons.1 hts
      exact h.append (h.plain ht) (ih hts)

theorem admits_forall {property : Token → Prop} (h : ∀ t, t.Inner → property t) :
    Admits fun ts => ∀ t ∈ ts, property t where
  nil := List.forall_mem_nil _
  append hs ht := List.forall_mem_append.2 ⟨hs, ht⟩
  inner ht := List.forall_mem_singleton.2 (h _ ht)

section

variable {read : List Token → Prop} {operand : Parse Node} {t : Token} {x : Terminal}

/-! ## Tokens -/

theorem Tolerant.expect (h : Tolerant read) (hx : x ≠ .unreserved ∧ x ≠ .leftBrace ∧
    x ≠ .rightBrace ∧ x ≠ .classKeyword) : Consumes (expect x) read := by
  refine consumes_expect h.toAdditive hx.1 fun t ht => h.plain ?_
  rw [Token.Plain, ht.terminal_eq hx.1]
  exact hx.2

theorem Tolerant.accept (h : Tolerant read) (hx : x ≠ .unreserved ∧ x ≠ .leftBrace ∧
    x ≠ .rightBrace ∧ x ≠ .classKeyword) : Consumes (accept x) read := by
  refine consumes_accept h.toAdditive hx.1 fun t ht => h.plain ?_
  rw [Token.Plain, ht.terminal_eq hx.1]
  exact hx.2

namespace Admits

theorem expect (h : Admits read) (hx : x ≠ .unreserved ∧ x.isInner = true) :
    Consumes (expect x) read :=
  consumes_expect h.toAdditive hx.1 fun _ ht => h.inner (ht.inner hx.1 hx.2)

theorem accept (h : Admits read) (hx : x ≠ .unreserved ∧ x.isInner = true) :
    Consumes (accept x) read :=
  consumes_accept h.toAdditive hx.1 fun _ ht => h.inner (ht.inner hx.1 hx.2)

theorem name (h : Admits read) : Consumes (expectKind .identifier) read :=
  consumes_name h.toAdditive fun _ ht => h.inner ht.inner

theorem identifier (h : Admits read) : Consumes identifier read :=
  consumes_identifier h.toAdditive fun _ ht => h.inner ht.inner

theorem advance (h : Admits read) (ht : t.WellFormed → t.Inner) : ConsumesAt t advance read :=
  consumesAt_advance h.toAdditive fun hwf => h.inner (ht hwf)

end Admits

namespace Additive

theorem pure {α : Type} (h : Additive read) (a : α) : Consumes (Pure.pure a : Parse α) read :=
  fun _ => consumesAt_pure h a

theorem seq {α β : Type} {p : Parse α} {f : α → Parse β} (h : Additive read)
    (hp : Consumes p read) (hf : ∀ a, Consumes (f a) read) : Consumes (p >>= f) read :=
  consumes_seq h hp hf

end Additive

/-! ## Expressions -/

theorem consumes_climb (h : Admits read) (hoperand : Consumes operand read) (b : Int × Node) :
    Consumes (climb operand b) read := by
  refine consumes_fix h.toAdditive ?_ b
  rintro self hself ⟨least, left⟩
  refine consumes_current_bind fun t => ?_
  split
  · exact h.pure _ t
  · next hgo =>
    refine consumesAt_seq h.toAdditive (h.advance fun hwf => hwf.inner_of_precedence ?_) ?_
    · rw [not_or, Int.not_lt, Int.not_lt] at hgo
      exact hgo.2
    · intro _
      split
      · exact fun _ => consumesAt_fail h.toAdditive _
      · refine h.seq hoperand fun right => consumes_current_bind fun next => ?_
        split
        · exact h.seq (hself _) (fun _ => hself _) next
        · exact hself _ next

theorem consumes_expressionOf (h : Admits read) (hoperand : Consumes operand read) :
    Consumes (expressionOf operand) read :=
  h.seq hoperand fun _ => consumes_climb h hoperand _

theorem consumes_arguments (h : Admits read) (hoperand : Consumes operand read) :
    Consumes (arguments operand) read := by
  refine h.seq (h.expect (by decide)) fun _ => h.seq (h.accept (by decide)) fun _ => ?_
  split
  · exact h.pure _
  · refine h.seq ?_ fun _ => h.seq (h.expect (by decide)) fun _ => h.pure _
    refine consumes_commaSeparated h.toAdditive
      (fun t ht => h.inner (ht.inner (by decide) rfl)) (consumes_expressionOf h hoperand)

theorem consumes_lengthCall (h : Admits read) : Consumes lengthCall read :=
  h.seq (h.expect (by decide)) fun _ => h.pure _

theorem consumes_bracketed (h : Admits read) (hoperand : Consumes operand read)
    (name : Token) : Consumes (bracketed operand name) read := by
  refine h.seq (h.accept (by decide)) fun _ => ?_
  split
  · exact h.seq h.identifier fun _ => h.pure _
  · refine h.seq (consumes_expressionOf h hoperand) fun _ => ?_
    exact h.seq (h.expect (by decide)) fun _ => h.pure _

theorem consumes_named (h : Admits read) (hoperand : Consumes operand read) :
    Consumes (named operand) read := by
  refine h.seq h.name fun name => consumes_current_bind fun t => ?_
  split
  · next ht =>
    refine consumesAt_seq h.toAdditive (h.advance fun hwf => (hwf.names ht).inner) ?_
    exact fun _ => h.pure _
  split
  · exact h.seq (consumes_arguments h hoperand) (fun _ => h.pure _) t
  · refine h.seq (h.accept (by decide)) (fun _ => ?_) t
    split
    · exact consumes_bracketed h hoperand name
    · exact h.pure _

theorem consumes_allocation (h : Admits read) (hoperand : Consumes operand read) :
    Consumes (allocation operand) read := by
  have htype : Consumes allocatedType read := by
    refine consumes_current_bind fun t => ?_
    split
    · next ht =>
      exact h.advance fun hwf => hwf.inner_of_kind (by rw [ht]; decide) (by rw [ht]; decide)
    · exact h.name t
  refine h.seq (h.expect (by decide)) fun _ => h.seq htype fun type => ?_
  refine h.seq (h.accept (by decide)) fun _ => ?_
  split
  · refine h.seq (consumes_expressionOf h hoperand) fun _ => ?_
    exact h.seq (h.expect (by decide)) fun _ => h.pure _
  · split
    · exact fun _ => consumesAt_refuse h.toAdditive _
    · exact h.seq (consumes_arguments h hoperand) fun _ => h.pure _

theorem consumes_literal (h : Admits read) (ht : t.WellFormed → t.Inner) :
    ConsumesAt t literal read := by
  refine consumesAt_seq h.toAdditive (h.advance ht) fun u => ?_
  split
  · exact h.pure _
  · exact fun _ => consumesAt_fail h.toAdditive _

theorem consumes_keywordPrimary (h : Admits read) (hoperand : Consumes operand read) :
    ConsumesAt t (keywordPrimary operand t) read := by
  unfold keywordPrimary
  split
  · next ht =>
    refine consumesAt_seq h.toAdditive (h.advance fun _ => ?_) fun _ => h.pure _
    rw [Token.Inner, ht]
    rfl
  · exact consumes_allocation h hoperand t
  · exact consumes_lengthCall h t
  · exact consumesAt_fail h.toAdditive _

theorem consumes_primary (h : Admits read) (hoperand : Consumes operand read) :
    Consumes (primary operand) read := by
  refine consumes_current_bind fun t => ?_
  have hliteral : t.kind ≠ .keyword → t.kind ≠ .delimiter → ConsumesAt t literal read :=
    fun hkeyword hdelimiter => consumes_literal h fun hwf => hwf.inner_of_kind hkeyword hdelimiter
  split
  · next ht => exact hliteral (by rw [ht]; decide) (by rw [ht]; decide)
  · next ht => exact hliteral (by rw [ht]; decide) (by rw [ht]; decide)
  · next ht => exact hliteral (by rw [ht]; decide) (by rw [ht]; decide)
  · next ht => exact hliteral (by rw [ht]; decide) (by rw [ht]; decide)
  · next ht => exact hliteral (by rw [ht]; decide) (by rw [ht]; decide)
  · exact consumes_named h hoperand t
  · exact consumes_keywordPrimary h hoperand
  · split
    · exact h.seq (h.expect (by decide)) (fun _ => h.seq hoperand fun _ => h.pure _) t
    · exact consumesAt_fail h.toAdditive _
  · split
    · refine h.seq (h.expect (by decide)) (fun _ => ?_) t
      refine h.seq (consumes_expressionOf h hoperand) fun _ => ?_
      exact h.seq (h.expect (by decide)) fun _ => h.pure _
    · exact consumesAt_fail h.toAdditive _
  · exact consumesAt_fail h.toAdditive _
  · exact consumesAt_fail h.toAdditive _
  · exact consumesAt_fail h.toAdditive _

theorem consumes_memberName (h : Admits read) (hoperand : Consumes operand read) :
    Consumes (memberName operand) read := by
  refine consumes_current_bind fun t => ?_
  split
  · exact consumes_lengthCall h t
  split
  · exact consumes_named h hoperand t
  · exact consumesAt_refuse h.toAdditive _

theorem consumes_members (h : Admits read) (hoperand : Consumes operand read) (left : Node) :
    Consumes (members operand left) read := by
  refine consumes_fix h.toAdditive (fun self hself left => ?_) left
  refine consumes_current_bind fun t => ?_
  split
  · next ht =>
    refine consumesAt_seq h.toAdditive (h.advance fun _ => ?_) fun _ => ?_
    · rw [Token.Inner, ht]
      rfl
    · exact h.seq (consumes_memberName h hoperand) fun _ => hself _
  · exact h.pure _ t

theorem consumes_operand (h : Admits read) : Consumes Grammar.operand read := by
  refine consumes_fix h.toAdditive (fun self hself _ => ?_) ()
  exact h.seq (consumes_primary h (hself ())) fun _ => consumes_members h (hself ()) _

theorem consumes_expression (h : Admits read) : Consumes expression read :=
  consumes_expressionOf h (consumes_operand h)

/-! ## Statements -/

theorem consumes_typeName (h : Admits read) : Consumes typeName read := by
  refine consumes_current_bind fun t => ?_
  split
  · next ht =>
    refine consumesAt_seq h.toAdditive (h.advance fun hwf => ?_) fun _ => ?_
    · rcases ht with ht | ht <;> exact hwf.inner_of_kind (by rw [ht]; decide) (by rw [ht]; decide)
    · refine h.seq (h.accept (by decide)) fun _ => ?_
      split
      · exact h.seq (h.expect (by decide)) fun _ => h.pure _
      · exact h.pure _
  · exact consumesAt_refuse h.toAdditive _

theorem consumes_declaration (h : Admits read) : Consumes declaration read :=
  consumes_current_bind fun t =>
    h.seq (consumes_typeName h) (fun _ => h.seq h.identifier fun _ => h.pure _) t

theorem consumes_condition (h : Admits read) : Consumes condition read := by
  refine h.seq (h.expect (by decide)) fun _ => h.seq (consumes_expression h) fun _ => ?_
  exact h.seq (h.expect (by decide)) fun _ => h.pure _

theorem consumes_clause (h : Admits read) (terminator : Terminal) :
    Consumes (clause terminator) read := by
  intro front
  refine consumesAt_check_bind (fun _ => h.pure _ front) fun _ => ?_
  exact consumesAt_map (consumes_expression h front)

theorem consumes_returnStatement (h : Tolerant read) : Consumes returnStatement read := by
  refine h.seq (h.expect (by decide)) fun _ => h.seq (consumes_expression h.admits) fun _ => ?_
  exact h.seq (h.expect (by decide)) fun _ => h.pure _

end

section

variable {α β : Type}

theorem consumes_closing (a : α) :
    Consumes (expect .rightBrace >>= fun _ => pure a) (Guarded (-1) 0) := by
  have hnil : Guarded (-1) 0 [] := (Guarded.additive 0).nil.mono (by decide) (Int.le_refl 0)
  have hdone : Consumes (pure a : Parse α) (· = []) := fun _ _ _ _ _ => rfl
  refine consumes_expect_bind (by decide) hnil (fun _ => hdone) ?_
  rintro t ts ht rfl
  exact .of_rightBrace ht

theorem consumes_inside {p : Parse α} {f : α → Parse β} (hp : Consumes p (Guarded 0 0))
    (hf : ∀ a, Consumes (f a) (Guarded (-1) 0)) : Consumes (p >>= f) (Guarded (-1) 0) :=
  fun front => consumesAt_bind (hp front) hf (fun hs => hs.mono (by decide) (Int.le_refl 0))
    fun hs ht => hs.append ht (by decide)

theorem consumes_braced {f : Token → Parse α} (hf : ∀ t, Consumes (f t) (Guarded (-1) 0)) :
    Consumes (expect .leftBrace >>= f) (Guarded 0 1) :=
  consumes_expect_bind (by decide) (Guarded.additive 1).nil hf .of_leftBrace

theorem consumes_itemsInside {stops : Token → Bool} {count : List Token → Nat}
    {item : Parse (Option α)} (hstops : ∀ t, stops t = false → t.terminal ≠ .rightBrace)
    (hitem : Consumes item (Guarded 0 0))
    (hcount : ∀ ts : List Token, Guarded 0 0 (ts.take (count ts))) :
    Consumes (items stops count item) (Guarded 0 0) :=
  consumes_items (Guarded.additive 0) (fun t _ => hitem t)
    (fun t ht _ => .of_ne_rightBrace (hstops t ht)) fun _ => hcount _

theorem guarded_take_toStatement (level : Int) (ts : List Token) :
    Guarded 0 level (ts.take (toStatement ts)) :=
  (tolerant_guarded level).unbraced (unbraced_take_toStatement ts)

theorem Consumes.weaken {p : Parse α} (h : Consumes p (Guarded 0 1)) :
    Consumes p (Guarded 0 0) :=
  fun front => (h front).mono fun hread => hread.mono (Int.le_refl 0) (by decide)

end

theorem consumes_statement : Consumes statement (Guarded 0 1) := by
  have h := tolerant_guarded 1
  refine consumes_fix h.toAdditive (fun self hself _ => consumes_current_bind fun t => ?_) ()
  have hself := hself ()
  split
  · refine h.seq (h.expect (by decide)) (fun _ => h.seq (consumes_condition h.admits) fun _ => ?_) t
    refine h.seq hself fun _ => h.seq (h.accept (by decide)) fun _ => ?_
    split
    · exact h.seq hself fun _ => h.pure _
    · exact h.pure _
  · refine h.seq (h.expect (by decide)) (fun _ => h.seq (consumes_condition h.admits) fun _ => ?_) t
    exact h.seq hself fun _ => h.pure _
  · refine h.seq (h.expect (by decide)) (fun _ => h.seq (h.expect (by decide)) fun _ => ?_) t
    refine h.seq (consumes_clause h.admits _) fun _ => h.seq (h.expect (by decide)) fun _ => ?_
    refine h.seq (consumes_clause h.admits _) fun _ => h.seq (h.expect (by decide)) fun _ => ?_
    refine h.seq (consumes_clause h.admits _) fun _ => h.seq (h.expect (by decide)) fun _ => ?_
    exact h.seq hself fun _ => h.pure _
  · refine h.seq (h.expect (by decide)) (fun _ => h.seq (consumes_condition h.admits) fun _ => ?_) t
    exact h.seq (h.expect (by decide)) fun _ => h.pure _
  · exact consumes_returnStatement h t
  · refine consumes_braced (fun _ => consumes_inside ?_ fun _ => consumes_closing _) t
    refine consumes_itemsInside (fun t ht => by simpa using ht) ?_ (guarded_take_toStatement 0)
    exact fun front => consumesAt_map (hself.weaken front)
  · split
    · refine h.seq (consumes_declaration h.admits) (fun _ => ?_) t
      exact h.seq (h.expect (by decide)) fun _ => h.pure _
    · refine h.seq (consumes_expression h.admits) (fun _ => ?_) t
      exact h.seq (h.accept (by decide)) fun _ => h.pure _

/-! ## Declarations -/

theorem consumes_bodyReturn {read : List Token → Prop} (h : Tolerant read) :
    Consumes bodyReturn read := by
  intro front
  refine consumesAt_check_bind (fun hfront => ?_) fun _ => ?_
  · refine consumesAt_recovering (consumesAt_map (consumes_returnStatement h front))
      (fun {ts} _ => h.unbraced (unbraced_take_toStatement ts)) h.nil id ?_
      fun hs _ hr => h.append hs hr
    refine fun _ hr => h.append (h.plain ?_) hr
    rw [Token.Plain, hfront]
    decide
  · refine h.seq (consumes_unexpected h.toAdditive _) (fun e => ?_) front
    exact h.seq (consumes_report h.toAdditive e) fun _ => h.pure _

theorem consumes_methodBody (needsReturn : Bool) :
    Consumes (methodBody needsReturn) (Guarded 0 1) := by
  refine consumes_braced fun _ => consumes_inside ?_ fun found => ?_
  · refine consumes_itemsInside ?_ ?_ (guarded_take_toStatement 0)
    · intro t ht hright
      rw [endsBody, hright] at ht
      exact absurd ht (by simp)
    · exact fun front => consumesAt_map (consumes_statement.weaken front)
  · split
    · exact consumes_inside (consumes_bodyReturn (tolerant_guarded 0)) fun _ => consumes_closing _
    · exact consumes_inside ((tolerant_guarded 0).pure _) fun _ => consumes_closing _

section

variable {read : List Token → Prop}

theorem consumes_attributes (h : Additive read)
    (hkeyword : ∀ {t : Token}, t.WellFormed → t.kind = .keyword → read [t]) :
    Consumes attributes read := by
  refine consumes_fix h (fun self hself _ => consumes_current_bind fun t => ?_) ()
  split
  · next ht =>
    rw [isAttribute, Bool.and_eq_true, beq_iff_eq] at ht
    exact consumesAt_seq h (consumesAt_advance h fun hwf => hkeyword hwf ht.1)
      fun _ front => consumesAt_map (hself () front)
  · exact h.pure _ t

theorem consumes_returnType (h : Tolerant read) : Consumes returnType read := by
  refine h.seq (h.accept (by decide)) fun _ => ?_
  split
  · exact h.pure _
  · exact consumes_typeName h.admits

theorem consumes_methodName (h : Tolerant read) : Consumes methodName read := by
  refine h.seq (h.accept (by decide)) fun _ => ?_
  split
  · exact h.pure _
  · exact h.admits.identifier

theorem consumes_parameters (h : Tolerant read) : Consumes parameters read := by
  refine h.seq (h.expect (by decide)) fun _ => h.seq (h.accept (by decide)) fun _ => ?_
  split
  · exact h.pure _
  · refine h.seq ?_ fun _ => h.seq (h.expect (by decide)) fun _ => h.pure _
    refine consumes_commaSeparated h.toAdditive (fun t ht => h.plain ?_)
      (consumes_declaration h.admits)
    rw [Token.Plain, ht.terminal_eq (by decide)]
    decide

end

theorem consumes_method : Consumes method (Guarded 0 0) := by
  have h := tolerant_guarded 0
  have hattributes : Consumes attributes (Guarded 0 0) :=
    consumes_attributes h.toAdditive fun hwf ht =>
      .of_brace_nonneg (Int.le_of_eq (hwf.brace_of_keyword ht).symm)
  refine h.seq (h.expect (by decide)) fun _ => h.seq hattributes fun _ => ?_
  refine h.seq (consumes_returnType h) fun _ => h.seq (consumes_methodName h) fun _ => ?_
  refine h.seq (consumes_parameters h) fun _ => ?_
  exact h.seq (consumes_methodBody true).weaken fun _ => h.pure _

theorem consumes_memberVariables : Consumes memberVariables (Guarded 0 0) := by
  have h := tolerant_guarded 0
  refine consumes_itemsInside ?_ ?_ (guarded_take_toStatement 0)
  · intro t ht hright
    rw [endsVariables, hright] at ht
    exact absurd ht (by simp)
  · refine h.seq consumes_statement.weaken fun found => ?_
    unfold keep
    split
    · exact h.pure _
    · exact h.seq (consumes_report h.toAdditive _) fun _ => h.pure _

theorem consumes_memberMethods : Consumes memberMethods (Guarded 0 0) := by
  refine consumes_itemsInside (fun t ht => by simpa using ht) ?_ ?_
  · exact fun front => consumesAt_map (consumes_method front)
  · exact fun ts => guarded_take_toMember 0 ts

/-! ## Classes -/

/-- Nothing, or a token that is no brace before tokens that shelter each `class`. -/
def Headed (ts : List Token) : Prop :=
  ts = [] ∨ ∃ t us, ts = t :: us ∧ t.brace = 0 ∧ Guarded 0 1 us

theorem consumes_class {α : Type} {f : Token → Parse α}
    (hf : ∀ t, Consumes (f t) (Guarded 0 1)) : Consumes (expect .classKeyword >>= f) Headed := by
  refine consumes_expect_bind (by decide) (.inl rfl) hf ?_
  intro t ts ht hts
  exact .inr ⟨t, ts, rfl, Token.brace_of_class (ht.terminal_eq (by decide)), hts⟩

theorem consumes_classDeclaration : Consumes classDeclaration Headed := by
  have h := tolerant_guarded 1
  have hbase : Consumes baseClass (Guarded 0 1) := by
    refine h.seq (h.accept (by decide)) fun _ => ?_
    split
    · exact fun front => consumesAt_map (h.admits.identifier front)
    · exact h.pure _
  refine consumes_class fun _ => h.seq h.admits.identifier fun _ => h.seq hbase fun _ => ?_
  refine consumes_braced fun _ => consumes_inside consumes_memberVariables fun _ => ?_
  exact consumes_inside consumes_memberMethods fun _ => consumes_closing _

theorem consumes_mainMethod : Consumes mainMethod (Guarded 0 1) := by
  have h := tolerant_guarded 1
  refine h.seq (h.expect (by decide)) fun _ => h.seq (h.expect (by decide)) fun _ => ?_
  refine h.seq (h.expect (by decide)) fun _ => h.seq (h.expect (by decide)) fun _ => ?_
  refine h.seq (h.expect (by decide)) fun _ => h.seq (h.expect (by decide)) fun _ => ?_
  refine h.seq (h.expect (by decide)) fun _ => h.seq (h.expect (by decide)) fun _ => ?_
  refine h.seq h.admits.identifier fun _ => h.seq (h.expect (by decide)) fun _ => ?_
  exact h.seq (consumes_methodBody false) fun _ => h.pure _

theorem consumes_mainClass : Consumes mainClass Headed := by
  have h := tolerant_guarded 1
  refine consumes_class fun _ => h.seq h.admits.identifier fun _ => consumes_braced fun _ => ?_
  refine consumes_inside ?_ fun _ => consumes_closing _
  exact consumes_mainMethod.weaken

/-- In all but the first token, each `class` stands inside braces. -/
def Sheltered (ts : List Token) : Prop :=
  ∀ before c after, ts = before ++ c :: after → c.terminal = .classKeyword → before ≠ [] →
    1 ≤ balance before

theorem Headed.sheltered {ts : List Token} (h : Headed ts) : Sheltered ts := by
  rintro before c after hts hc hbefore
  rcases h with rfl | ⟨t, us, rfl, hbrace, -, hdeep⟩
  · exact absurd hts.symm (List.append_ne_nil_of_right_ne_nil _ (List.cons_ne_nil _ _))
  · cases before with
    | nil => exact absurd rfl hbefore
    | cons u before =>
        rw [List.cons_append, List.cons.injEq] at hts
        obtain ⟨rfl, rfl⟩ := hts
        have hlevel := ((deep_append ..).1 hdeep).2.1 hc
        rw [balance_cons, hbrace]
        omega

theorem Guarded.sheltered {ts : List Token} (h : Guarded 0 1 ts) : Sheltered ts := by
  rintro before c after rfl hc -
  have hlevel := ((deep_append ..).1 h.2).2.1 hc
  omega

theorem Sheltered.append {ts us : List Token} (h : Sheltered ts) (hus : Unbraced us) :
    Sheltered (ts ++ us) := by
  rintro before c after hts hc hbefore
  have hmem : c ∉ us := fun hmem => (hus c hmem).2.2 hc
  rcases List.append_eq_append_iff.1 hts with ⟨middle, rfl, rfl⟩ | ⟨middle, rfl, hafter⟩
  · exact absurd (List.mem_append_right _ (List.mem_cons_self ..)) hmem
  · cases middle with
    | nil =>
        rw [List.nil_append] at hafter
        exact absurd (hafter ▸ List.mem_cons_self ..) hmem
    | cons u middle =>
        rw [List.cons_append, List.cons.injEq] at hafter
        obtain ⟨rfl, -⟩ := hafter
        exact h before c middle rfl hc hbefore

theorem sheltered_singleton (t : Token) : Sheltered [t] := by
  intro before c after hts _ hbefore
  cases before with
  | nil => exact absurd rfl hbefore
  | cons u before =>
      rw [List.cons_append, List.cons.injEq] at hts
      exact absurd hts.2.symm (List.append_ne_nil_of_right_ne_nil _ (List.cons_ne_nil _ _))

theorem consumes_keep (wanted : NodeKind) (node : Node) : Consumes (keep wanted node) (· = []) := by
  have hempty : Additive (· = []) := ⟨rfl, fun hs ht => by rw [hs, ht]; rfl⟩
  unfold keep
  split
  · exact fun _ => consumesAt_pure hempty _
  · exact consumes_seq hempty (consumes_report hempty _) fun _ _ => consumesAt_pure hempty _

theorem consumes_topItem : Consumes topItem Sheltered := by
  intro front
  have hdone : Consumes (pure none : Parse (Option Node)) (· = []) := fun _ _ _ _ _ => rfl
  refine consumesAt_accept_bind (by decide) hdone ?_ ?_
  · rintro t ts - rfl
    exact sheltered_singleton t
  · refine consumesAt_check_bind (fun _ => ?_) fun _ => ?_
    · refine consumesAt_bind (consumes_classDeclaration front) (consumes_keep _)
        Headed.sheltered ?_
      rintro s t hs rfl
      rw [List.append_nil]
      exact hs.sheltered
    · refine consumesAt_bind (consumes_statement front) (consumes_keep _)
        Guarded.sheltered ?_
      rintro s t hs rfl
      rw [List.append_nil]
      exact Guarded.sheltered hs

/-- A round of the list of classes, whether its item is read or not. -/
theorem consumes_round {front : Token} {item : Parse (Option Node)}
    (h : ConsumesAt front item Sheltered) :
    ConsumesAt front (recovering toStatement item) Sheltered := by
  refine consumesAt_recovering h (fun {ts} _ => unbraced_take_toStatement ts) ?_ id ?_ ?_
  · exact Guarded.sheltered (Guarded.additive 1).nil
  · exact fun _ hr => (sheltered_singleton front).append hr
  · exact fun hs _ hr => hs.append hr

end Grammar

end MiniJava
