import MiniJava.Proofs.Rendering.Strict
/-!
# Strict trees are written

The tokens of a strict tree are a rendering of it, with no semicolon missing.
-/

namespace MiniJava

/-! ## Words -/

theorem wordToken_text (l : Location) (word : String) : (wordToken l word).text = word :=
  Lexicon.classify_text word

theorem wordToken_names {word : String} (h : isName word = true) (l : Location) :
    (wordToken l word).Names word := by
  have hfind : Lexicon.find? word = none := by
    simpa [isName, Lexicon.contains] using h
  show Lexicon.classify word = .name word
  rw [Lexicon.classify, hfind]
  rfl

theorem symbolToken_spells (l : Location) (x : Terminal) : (symbolToken l x).Spells x := rfl

theorem wordToken_spells {word : String} {x : Terminal} (h : Lexicon.classify word = x.lexeme)
    (l : Location) : (wordToken l word).Spells x := h

theorem wordToken_elementType {word : String} (h : isElementType word = true) (l : Location) :
    Rendering.ElementType (wordToken l word) := by
  rw [isElementType, Bool.or_eq_true, beq_iff_eq] at h
  rcases h with h | h
  · right
    rw [wordToken_text]
    exact wordToken_names h l
  · rcases Lexicon.classify_cases word with ⟨-, hname⟩ | ⟨x, -, hx⟩
    · rw [hname] at h
      exact absurd h (show TokenKind.identifier ≠ _ by decide)
    · exact .inl ⟨x, hx ▸ h, hx⟩

theorem wordToken_attribute {word : String} (h : isQualifier word = true) (l : Location) :
    Rendering.Attribute (wordToken l word) := by
  rw [isQualifier, Bool.and_eq_true, beq_iff_eq, bne_iff_ne] at h
  rcases Lexicon.classify_cases word with ⟨-, hname⟩ | ⟨x, -, hx⟩
  · rw [hname] at h
    exact absurd h.1 (show TokenKind.identifier ≠ _ by decide)
  · refine ⟨x, hx ▸ h.1, ?_, hx⟩
    rintro rfl
    exact h.2 ((Lexicon.classify_text word).symm.trans (hx ▸ by decide))

theorem eq_of_arrayElement? {type element : String} (h : arrayElement? type = some element) :
    type = element ++ "[]" := by
  unfold arrayElement? at h
  split at h
  · next rest hrest =>
    obtain rfl := Option.some.inj h
    have htype : type.toList = rest.reverse ++ ['[', ']'] := by
      rw [← List.reverse_reverse type.toList, hrest]
      simp
    rw [← String.toList_inj, htype]
    simp
  · exact absurd h (Option.some_ne_none _).symm

theorem typeTail_spec (l : Location) (type : String) :
    ∃ tail, type = elementType type ++ tail ∧ Rendering.TypeTail tail (typeTail l type) := by
  unfold elementType typeTail
  cases helement : arrayElement? type with
  | none => exact ⟨"", (String.append_empty).symm, .plain⟩
  | some element =>
      exact ⟨"[]", eq_of_arrayElement? helement,
        .array (symbolToken_spells l _) (symbolToken_spells l _)⟩

theorem typeTokens_typeName {type : String} (h : isType type = true) (l : Location) :
    Rendering.TypeName type (typeTokens l type) := by
  obtain ⟨tail, htype, htail⟩ := typeTail_spec l type
  have hname := Rendering.TypeName.mk (wordToken_elementType h l) htail
  rwa [wordToken_text, ← htype] at hname

theorem eq_of_isArrayType {type : String} (h : isArrayType type = true) :
    type = elementType type ++ "[]" := by
  rw [isArrayType, Bool.and_eq_true, Option.isSome_iff_exists] at h
  obtain ⟨⟨element, helement⟩, -⟩ := h
  rw [elementType, helement]
  exact eq_of_arrayElement? helement

theorem Literal.writtenAs {value : Literal} (h : value.isWritable = true) (l : Location) :
    value.WrittenAs ⟨value.lexeme, l⟩ := by
  cases value with
  | integer n => exact ⟨by simpa [isWritable] using h, _, rfl⟩
  | real x => exact ⟨_, rfl⟩
  | char c => rfl
  | string s => rfl
  | boolean b => rfl

namespace Rendering

/-! ## Lists -/

section

variable {α : Type} {item : α → List Token → Prop} {f : α → List Token}

theorem separated_of_forall {a : α} {as : List α} (l : Location)
    (h : ∀ b ∈ a :: as, item b (f b)) :
    Separated item (a :: as) (separateByCommas l ((a :: as).map f)) := by
  induction as generalizing a with
  | nil => exact .one (h a (List.mem_cons_self ..))
  | cons b bs ih =>
      obtain ⟨ha, hbs⟩ := List.forall_mem_cons.1 h
      exact .more ha (symbolToken_spells l .comma) (ih hbs)

theorem sequence_of_forall {as : List α} (h : ∀ a ∈ as, item a (f a)) :
    Sequence item as (as.flatMap f) := by
  induction as with
  | nil => exact .nil
  | cons a as ih =>
      obtain ⟨ha, has⟩ := List.forall_mem_cons.1 h
      exact .cons ha (ih has)

end

end Rendering

/-! ## Expressions -/

namespace BinaryOperator

theorem leftLevel_nonneg (op : BinaryOperator) : 0 ≤ op.leftLevel := by
  cases op <;> decide

theorem levels_of_ne_member {op : BinaryOperator} (h : op ≠ .member) :
    op.leftLevel = op.precedence ∧ op.rightLevel = op.precedence + 1 := by
  cases op with
  | member => exact absurd rfl h
  | _ => exact ⟨rfl, rfl⟩

theorem leftLevel_lt {op : BinaryOperator} (h : op ≠ .member) : op.leftLevel < negationLevel := by
  cases op with
  | member => exact absurd rfl h
  | _ => decide

end BinaryOperator

namespace Node

open Rendering

theorem tokensOfEach_eq (ns : List Node) : tokensOfEach ns = ns.map tokens := by
  induction ns with
  | nil => rfl
  | cons n ns ih => rw [tokensOfEach, ih, List.map_cons]

theorem level_nonneg (n : Node) : 0 ≤ n.level := by
  unfold level
  split
  · exact BinaryOperator.leftLevel_nonneg _
  · decide
  · decide

/-- The tokens of an expression are a rendering of it wherever it is held no more tightly than
its parts hold together. -/
structure Written (n : Node) : Prop where
  expression : ∀ p ≤ n.level, Expression p n n.tokens
  operand : negationLevel ≤ n.level → Operand n n.tokens
  accessed : memberLevel ≤ n.level → Accessed n n.tokens
  member : n.isMember = true → Member n n.tokens

namespace Written

variable {n : Node}

theorem of_accessed (h : Accessed n n.tokens) (hmember : n.isMember = true → Member n n.tokens) :
    Written n :=
  ⟨fun _ _ => .operand (.accessed h), fun _ => .accessed h, fun _ => h, hmember⟩

theorem of_primary (h : Primary n n.tokens) (hmember : n.isMember = false) : Written n :=
  of_accessed (.primary h) fun htrue => absurd (hmember.symm.trans htrue) Bool.false_ne_true

theorem of_named (h : Named n n.tokens) : Written n :=
  of_accessed (.primary (.named h)) fun _ => .named h

theorem inParentheses (h : Written n) :
    Accessed n (inParentheses n.location n.tokens) :=
  .primary (.parenthesised (symbolToken_spells _ _) (h.expression 0 n.level_nonneg)
    (symbolToken_spells _ _))

theorem enclosed_expression (h : Written n) (p : Int) : Expression p n (n.enclosed p n.tokens) := by
  unfold enclosed
  split
  · exact .operand (.accessed h.inParentheses)
  · next hlevel => exact h.expression p (Int.not_lt.1 hlevel)

theorem enclosed_operand (h : Written n) : Operand n (n.enclosed negationLevel n.tokens) := by
  unfold enclosed
  split
  · exact .accessed h.inParentheses
  · next hlevel => exact h.operand (Int.not_lt.1 hlevel)

theorem enclosed_accessed (h : Written n) : Accessed n (n.enclosed memberLevel n.tokens) := by
  unfold enclosed
  split
  · exact h.inParentheses
  · next hlevel => exact h.accessed (Int.not_lt.1 hlevel)

end Written

theorem arguments_written {ns : List Node} (h : ∀ n ∈ ns, Written n) (l : Location) :
    Arguments ns (MiniJava.inParentheses l (separateByCommas l (tokensOfEach ns))) := by
  rw [tokensOfEach_eq]
  cases ns with
  | nil => exact .none (symbolToken_spells _ _) (symbolToken_spells _ _)
  | cons n ns =>
      refine .some (symbolToken_spells _ _) (separated_of_forall l fun m hm => ?_)
        (symbolToken_spells _ _)
      exact (h m hm).expression 0 m.level_nonneg

/-- A call after a dot is a name and arguments, unless it is the length of an array. -/
theorem call_of_member {name : String} {ns : List Node} {l : Location} {ts : List Token}
    (h : Member (methodCall name ns l) ts) (hname : name ≠ "length") :
    ∃ t us, ts = t :: us ∧ t.location = l ∧ t.Names name ∧ Arguments ns us := by
  cases h with
  | length => exact absurd rfl hname
  | named h =>
      cases h with
      | call ht hns => exact ⟨_, _, rfl, rfl, ht, hns⟩

theorem ne_length_of_isName {name : String} (h : isName name = true) : name ≠ "length" := by
  rintro rfl
  exact absurd h (by decide)

theorem enclosed_of_isMember {n : Node} (h : n.isMember = true) (ts : List Token) :
    n.enclosed memberLevel ts = ts := by
  cases n with
  | reference => rfl
  | methodCall => rfl
  | _ => exact absurd h Bool.false_ne_true

section

variable {l : Location}

theorem written_this : Written (reference "this" none l) :=
  .of_primary (.this (wordToken_spells (by decide) l)) rfl

theorem written_length : Written (methodCall "length" [] l) := by
  have ht : (wordToken l "length").Spells .lengthKeyword := wordToken_spells (by decide) l
  exact .of_accessed (.primary (.length ht)) fun _ => .length ht

theorem written_methodCall {name : String} {arguments : List Node} (hname : isName name = true)
    (h : ∀ n ∈ arguments, Written n) : Written (methodCall name arguments l) := by
  refine .of_named ?_
  rw [tokens, if_neg (by simpa using ne_length_of_isName hname)]
  exact .call (wordToken_names hname l) (arguments_written h l)

theorem written_index {name : String} {index : Node} (hname : isName name = true)
    (h : Written index) : Written (reference name (some index) l) :=
  .of_named (.index (wordToken_names hname l) (symbolToken_spells l _)
    (h.expression 0 index.level_nonneg) (symbolToken_spells l _))

theorem written_unary {operator : UnaryOperator} {operand : Node} (h : Written operand) :
    Written (unary operator operand l) := by
  have hoperand : Operand (unary operator operand l) (unary operator operand l).tokens := by
    cases operator
    exact .negation (symbolToken_spells l _) h.enclosed_operand
  exact ⟨fun _ _ => .operand hoperand, fun _ => hoperand,
    fun hlevel => absurd hlevel (show ¬ memberLevel ≤ negationLevel by decide),
    fun hmember => absurd hmember Bool.false_ne_true⟩

theorem written_binary {operator : BinaryOperator} {left right : Node} (hleft : Written left)
    (hright : Written right) (hmember : operator = .member → right.isMember = true) :
    Written (binary operator left right l) := by
  by_cases hoperator : operator = .member
  · subst hoperator
    refine .of_accessed ?_ fun htrue => absurd htrue Bool.false_ne_true
    have hright := hright.member (hmember rfl)
    rw [← enclosed_of_isMember (hmember rfl) right.tokens] at hright
    exact .member hleft.enclosed_accessed (symbolToken_spells l _) hright
  · obtain ⟨hleftLevel, hrightLevel⟩ := BinaryOperator.levels_of_ne_member hoperator
    have hlt : (binary operator left right l).level < negationLevel :=
      BinaryOperator.leftLevel_lt hoperator
    refine ⟨fun p hp => ?_, fun hlevel => by omega, fun hlevel => ?_,
      fun htrue => absurd htrue Bool.false_ne_true⟩
    · have hp : p ≤ operator.leftLevel := hp
      rw [tokens, hleftLevel, hrightLevel]
      rw [hleftLevel] at hp
      exact .binary hp (hleft.enclosed_expression _) (symbolToken_spells l _)
        (hright.enclosed_expression _)
    · have hlevels : negationLevel < memberLevel := by decide
      omega

theorem written_newArray {type : String} {length : Node} (htype : isArrayType type = true)
    (h : Written length) : Written (newArray type length l) := by
  have hname := eq_of_isArrayType htype
  rw [isArrayType, Bool.and_eq_true] at htype
  have harray := Primary.array (symbolToken_spells l .newKeyword)
    (wordToken_elementType htype.2 l) (symbolToken_spells l .leftBracket)
    (h.expression 0 length.level_nonneg) (symbolToken_spells l .rightBracket)
  rw [wordToken_text, ← hname] at harray
  exact .of_primary harray rfl

theorem written_newObject {type : String} {constructor : Node} (htype : isName type = true)
    (hcall : constructor.isCallOf type = true) (h : Written constructor) :
    Written (newObject type constructor l) := by
  cases constructor with
  | methodCall name arguments l' =>
      obtain rfl : name = type := beq_iff_eq.1 hcall
      obtain ⟨t, us, hts, rfl, ht, hns⟩ :=
        call_of_member (h.member rfl) (ne_length_of_isName htype)
      refine .of_primary ?_ rfl
      rw [tokens, hts]
      exact .object (symbolToken_spells l _) ht hns
  | _ => exact absurd hcall Bool.false_ne_true

end

mutual

/-- A strict expression is written. -/
theorem written_of_isStrictExpression : ∀ n : Node, n.isStrictExpression = true → Written n
  | literal value l => fun h => .of_primary (.literal (Literal.writtenAs h l)) rfl
  | reference name none l => by
    intro h
    rw [isStrictExpression, Bool.or_eq_true, beq_iff_eq] at h
    rcases h with rfl | h
    · exact written_this
    · exact .of_named (.plain (wordToken_names h l))
  | reference name (some index) l => by
    intro h
    rw [isStrictExpression, Bool.and_eq_true] at h
    exact written_index h.1 (written_of_isStrictExpression index h.2)
  | methodCall name arguments l => by
    intro h
    rw [isStrictExpression, Bool.or_eq_true, Bool.and_eq_true, Bool.and_eq_true, beq_iff_eq,
      List.isEmpty_iff] at h
    rcases h with ⟨rfl, rfl⟩ | ⟨hname, h⟩
    · exact written_length
    · exact written_methodCall hname (written_of_areStrictExpressions arguments h)
  | unary operator operand l => fun h => written_unary (written_of_isStrictExpression operand h)
  | binary operator left right l => by
    intro h
    rw [isStrictExpression, Bool.and_eq_true, Bool.and_eq_true, Bool.or_eq_true, bne_iff_ne] at h
    obtain ⟨⟨hleft, hright⟩, hmember⟩ := h
    exact written_binary (written_of_isStrictExpression left hleft)
      (written_of_isStrictExpression right hright) fun heq => hmember.resolve_left (absurd heq)
  | newArray type length l => by
    intro h
    rw [isStrictExpression, Bool.and_eq_true] at h
    exact written_newArray h.1 (written_of_isStrictExpression length h.2)
  | newObject type constructor l => by
    intro h
    rw [isStrictExpression, Bool.and_eq_true, Bool.and_eq_true] at h
    exact written_newObject h.1.1 h.1.2 (written_of_isStrictExpression constructor h.2)
  | mainClass .. | classDeclaration .. | methodDeclaration .. | methodBody ..
  | variableDeclaration .. | block .. | ifStatement .. | whileStatement .. | forStatement ..
  | returnStatement .. | printStatement .. => fun h => absurd h Bool.false_ne_true

theorem written_of_areStrictExpressions :
    ∀ ns : List Node, areStrictExpressions ns = true → ∀ n ∈ ns, Written n
  | [] => fun _ => List.forall_mem_nil _
  | n :: ns => by
    intro h
    rw [areStrictExpressions, Bool.and_eq_true] at h
    exact List.forall_mem_cons.2 ⟨written_of_isStrictExpression n h.1,
      written_of_areStrictExpressions ns h.2⟩

end

/-! ## Statements -/

theorem expression_written {n : Node} (h : n.isStrictExpression = true) :
    Expression 0 n n.tokens :=
  (written_of_isStrictExpression n h).expression 0 n.level_nonneg

theorem condition_written {n : Node} (h : n.isStrictExpression = true) (l : Location) :
    Condition n (inParentheses l n.tokens) :=
  .mk (symbolToken_spells l _) (expression_written h) (symbolToken_spells l _)

theorem clause_written {found : Option Node} (h : found.all isStrictExpression = true) :
    Clause found (clauseTokens found) := by
  cases found with
  | none => rfl
  | some n => exact expression_written h

theorem declaration_written {n : Node} (h : n.isStrictDeclaration = true) :
    Declaration n n.tokens := by
  cases n with
  | variableDeclaration type name l =>
      rw [isStrictDeclaration, Bool.and_eq_true] at h
      exact .mk (typeTokens_typeName h.1 l) (wordToken_names h.2 l)
  | _ => exact absurd h Bool.false_ne_true

/-- A declaration that begins with the name of a class begins like an expression. -/
theorem named_of_typeTail {type tail name : String} {t u : Token} {ts : List Token}
    (ht : t.Names type) (htail : TypeTail tail ts) (hu : u.Names name) :
    Named (variableDeclaration (type ++ tail) name t.location) (t :: (ts ++ [u])) := by
  cases htail with
  | plain =>
      rw [String.append_empty]
      exact .declaration ht hu
  | array hopening hclosing => exact .arrayDeclaration ht hopening hclosing hu

theorem declarationStatement_written {n : Node} (h : n.isStrictDeclaration = true) :
    Statement false n (n.tokens ++ [symbolToken n.location .semicolon]) := by
  have hdeclaration := declaration_written h
  cases n with
  | variableDeclaration type name l =>
      rw [isStrictDeclaration, Bool.and_eq_true] at h
      obtain ⟨htype, hname⟩ := h
      rcases wordToken_elementType htype l with hdata | hclass
      · exact .declaration hdeclaration hdata (symbolToken_spells l _)
      · obtain ⟨tail, heq, htail⟩ := typeTail_spec l type
        rw [wordToken_text] at hclass
        have hnamed := named_of_typeTail hclass htail (wordToken_names hname l)
        rw [← heq] at hnamed
        exact .expression (.operand (.accessed (.primary (.named hnamed)))) (symbolToken_spells l _)
  | _ => exact absurd h Bool.false_ne_true

theorem simpleStatement_written {n : Node}
    (h : (n.isStrictDeclaration || n.isStrictExpression) = true) :
    Statement false n (n.tokens ++ [symbolToken n.location .semicolon]) := by
  rw [Bool.or_eq_true] at h
  rcases h with h | h
  · exact declarationStatement_written h
  · exact .expression (expression_written h) (symbolToken_spells _ _)

mutual

/-- A strict statement is written. -/
theorem statement_written :
    ∀ n : Node, n.isStrictStatement = true → Statement false n n.statementTokens
  | block statements l => fun h =>
    .block (symbolToken_spells l _) (statements_written statements h) (symbolToken_spells l _)
  | ifStatement condition thenBranch none l => by
    intro h
    rw [isStrictStatement, Bool.and_eq_true] at h
    exact .ifThen (symbolToken_spells l _) (condition_written h.1 l)
      (statement_written thenBranch h.2)
  | ifStatement condition thenBranch (some elseBranch) l => by
    intro h
    rw [isStrictStatement, Bool.and_eq_true, Bool.and_eq_true, Bool.and_eq_true,
      Bool.not_eq_true'] at h
    obtain ⟨⟨⟨hcondition, hthen⟩, hclosed⟩, helse⟩ := h
    exact .ifElse (symbolToken_spells l _) (condition_written hcondition l)
      (statement_written thenBranch hthen) hclosed (symbolToken_spells l _)
      (statement_written elseBranch helse)
  | whileStatement condition body l => by
    intro h
    rw [isStrictStatement, Bool.and_eq_true] at h
    exact .whileLoop (symbolToken_spells l _) (condition_written h.1 l)
      (statement_written body h.2)
  | forStatement first condition update body l => by
    intro h
    rw [isStrictStatement, Bool.and_eq_true, Bool.and_eq_true, Bool.and_eq_true] at h
    obtain ⟨⟨⟨hfirst, hcondition⟩, hupdate⟩, hbody⟩ := h
    exact .forLoop (symbolToken_spells l _) (symbolToken_spells l _) (clause_written hfirst)
      (symbolToken_spells l _) (clause_written hcondition) (symbolToken_spells l _)
      (clause_written hupdate) (symbolToken_spells l _) (statement_written body hbody)
  | returnStatement value l => fun h =>
    .return (symbolToken_spells l _) (expression_written h) (symbolToken_spells l _)
  | printStatement value l => fun h =>
    .print (symbolToken_spells l _) (condition_written h l) (symbolToken_spells l _)
  | mainClass .. | classDeclaration .. | methodDeclaration .. | methodBody ..
  | variableDeclaration .. | newObject .. | newArray .. | methodCall .. | reference ..
  | binary .. | unary .. | literal .. => simpleStatement_written

theorem statements_written : ∀ ns : List Node, areStrictStatements ns = true →
    Sequence (Statement false) ns (tokensOfStatements ns)
  | [] => fun _ => .nil
  | n :: ns => by
    intro h
    rw [areStrictStatements, Bool.and_eq_true] at h
    exact .cons (statement_written n h.1) (statements_written ns h.2)

end

/-! ## Bodies, methods and classes -/

theorem areStrictStatements_iff (ns : List Node) :
    areStrictStatements ns = true ↔ ∀ n ∈ ns, n.isStrictStatement = true := by
  induction ns with
  | nil => simp [areStrictStatements]
  | cons n ns ih => rw [areStrictStatements, Bool.and_eq_true, ih, List.forall_mem_cons]

theorem isStrictStatement_of_isStrictDeclaration {n : Node} (h : n.isStrictDeclaration = true) :
    n.isStrictStatement = true ∧ n.isVariableDeclaration = true ∧ n.isReturn = false := by
  cases n with
  | variableDeclaration type name l =>
      exact ⟨(Bool.or_eq_true _ _).mpr (.inl h), rfl, rfl⟩
  | _ => exact absurd h Bool.false_ne_true

theorem declarations_written {ns : List Node} (h : ns.all isStrictDeclaration = true) :
    Sequence (Statement false) ns (tokensOfStatements ns) ∧
      ∀ n ∈ ns, n.isVariableDeclaration = true := by
  rw [List.all_eq_true] at h
  refine ⟨statements_written ns ((areStrictStatements_iff ns).2 fun n hn => ?_), fun n hn => ?_⟩
  · exact (isStrictStatement_of_isStrictDeclaration (h n hn)).1
  · exact (isStrictStatement_of_isStrictDeclaration (h n hn)).2.1

theorem body_written {needsReturn : Bool} {n : Node} (h : n.isStrictBody needsReturn = true) :
    Body false needsReturn n n.bodyTokens := by
  cases n with
  | methodBody locals statements returned l =>
      rw [isStrictBody, Bool.and_eq_true, Bool.and_eq_true, Bool.and_eq_true, List.all_eq_true,
        List.all_eq_true] at h
      obtain ⟨⟨⟨hlocals, hstatements⟩, hhead⟩, hreturned⟩ := h
      have hlocal := fun n hn => isStrictStatement_of_isStrictDeclaration (hlocals n hn)
      have hsequence : Sequence (Statement false) (locals ++ statements)
          (tokensOfStatements (locals ++ statements)) := by
        refine statements_written _ ((areStrictStatements_iff _).2 ?_)
        exact List.forall_mem_append.2 ⟨fun n hn => (hlocal n hn).1, hstatements⟩
      have hhead : ∀ n ∈ statements.head?, n.isVariableDeclaration = false := by
        intro n hn
        rw [Option.mem_def.1 hn] at hhead
        simpa using hhead
      have hends : (needsReturn = true → ∀ n ∈ locals ++ statements, n.isReturn = false) ∧
          Returned false needsReturn returned (returned.elim [] statementTokens) := by
        cases needsReturn with
        | false =>
            refine ⟨fun h => absurd h Bool.false_ne_true, ?_⟩
            obtain rfl : returned = none := by simpa using hreturned
            exact ⟨rfl, rfl⟩
        | true =>
            rw [if_pos rfl, Bool.and_eq_true, List.all_eq_true] at hreturned
            obtain ⟨hnone, hreturned⟩ := hreturned
            refine ⟨fun _ => List.forall_mem_append.2 ⟨fun n hn => (hlocal n hn).2.2, ?_⟩, ?_⟩
            · exact fun n hn => by simpa using hnone n hn
            · cases returned with
              | none => exact absurd hreturned Bool.false_ne_true
              | some n =>
                  rw [Option.any_some, Bool.and_eq_true] at hreturned
                  exact ⟨rfl, hreturned.1, statement_written n hreturned.2⟩
      exact .mk (symbolToken_spells l _) hsequence (fun n hn => (hlocal n hn).2.1) hhead hends.1
        hends.2 (symbolToken_spells l _)
  | _ => exact absurd h Bool.false_ne_true

theorem parameters_written {ns : List Node} (h : ns.all isStrictDeclaration = true)
    (l : Location) :
    Parameters ns (inParentheses l (separateByCommas l (tokensOfEach ns))) := by
  rw [tokensOfEach_eq]
  rw [List.all_eq_true] at h
  cases ns with
  | nil => exact .none (symbolToken_spells l _) (symbolToken_spells l _)
  | cons n ns =>
      exact .some (symbolToken_spells l _)
        (separated_of_forall l fun m hm => declaration_written (h m hm)) (symbolToken_spells l _)

theorem void_spells (l : Location) :
    typeTokens l "void" = [wordToken l "void"] ∧ (wordToken l "void").Spells .voidKeyword := by
  have helement : arrayElement? "void" = none := by decide
  refine ⟨?_, wordToken_spells (by decide) l⟩
  rw [typeTokens, typeTail, elementType, helement]
  rfl

theorem returnType_written {type : String} (h : (type == "void" || isType type) = true)
    (l : Location) : ReturnType type (typeTokens l type) := by
  rw [Bool.or_eq_true, beq_iff_eq] at h
  rcases h with rfl | h
  · obtain ⟨htokens, hvoid⟩ := void_spells l
    rw [htokens]
    exact .void hvoid
  · exact .named (typeTokens_typeName h l)

theorem methodName_written {name : String} (h : (name == "main" || isName name) = true)
    (l : Location) : MethodName name (wordToken l name) := by
  rw [Bool.or_eq_true, beq_iff_eq] at h
  rcases h with rfl | h
  · exact .main (wordToken_spells (by decide) l)
  · exact .named (wordToken_names h l)

theorem method_written {n : Node} (h : n.isStrictMethod = true) :
    Method false n n.methodTokens := by
  cases n with
  | methodDeclaration attributes type name parameters body l =>
      rw [isStrictMethod, Bool.and_eq_true, Bool.and_eq_true, Bool.and_eq_true, Bool.and_eq_true,
        Bool.and_eq_true, beq_iff_eq, List.all_eq_true] at h
      obtain ⟨⟨⟨⟨⟨hpublic, hattributes⟩, htype⟩, hname⟩, hparameters⟩, hbody⟩ := h
      cases attributes with
      | nil => exact absurd hpublic (by simp)
      | cons a others =>
          obtain rfl : a = "public" := Option.some.inj hpublic
          have hqualifiers : ∀ t ∈ others.map (wordToken l), Attribute t := by
            intro t ht
            obtain ⟨word, hword, rfl⟩ := List.mem_map.1 ht
            exact wordToken_attribute (hattributes word hword) l
          have hpublic : (wordToken l "public").Spells .publicKeyword :=
            wordToken_spells (by decide) l
          have hmethod := Method.mk hpublic hqualifiers (returnType_written htype l)
            (methodName_written hname l) (parameters_written hparameters l) (body_written hbody)
          have htexts : (others.map (wordToken l)).map (·.text) = others := by
            rw [List.map_map]
            exact (List.map_congr_left fun word _ => wordToken_text l word).trans (List.map_id _)
          rw [htexts] at hmethod
          exact hmethod
  | _ => exact absurd h Bool.false_ne_true

theorem mainMethod_written {n : Node} (h : n.isStrictMainMethod = true) :
    MainMethod false n n.methodTokens := by
  unfold isStrictMainMethod at h
  split at h
  · next attributes type name parameter body l =>
    rw [Bool.and_eq_true, Bool.and_eq_true, Bool.and_eq_true, Bool.and_eq_true, beq_iff_eq,
      beq_iff_eq, beq_iff_eq] at h
    obtain ⟨⟨⟨⟨rfl, rfl⟩, rfl⟩, hparameter⟩, hbody⟩ := h
    cases parameter with
    | variableDeclaration type name l' =>
        rw [isMainParameter, Bool.and_eq_true, beq_iff_eq] at hparameter
        obtain ⟨rfl, hname⟩ := hparameter
        obtain ⟨hvoidTokens, hvoid⟩ := void_spells l
        have helement : arrayElement? "String[]" = some "String" := by decide
        rw [methodTokens, hvoidTokens, tokensOfEach, tokensOfEach, tokens, typeTokens, typeTail,
          elementType, helement]
        exact .mk (wordToken_spells (by decide) l) (wordToken_spells (by decide) l) hvoid
          (wordToken_spells (by decide) l) (symbolToken_spells l _)
          (wordToken_spells (by decide) l') (symbolToken_spells l' _) (symbolToken_spells l' _)
          (wordToken_names hname l') (symbolToken_spells l _) (body_written hbody)
    | _ => exact absurd hparameter Bool.false_ne_true
  · exact absurd h Bool.false_ne_true

theorem class_written {n : Node} (h : n.isStrictClass = true) : Class false n n.classTokens := by
  cases n with
  | classDeclaration name base declarations methods l =>
      rw [isStrictClass, Bool.and_eq_true, Bool.and_eq_true, Bool.and_eq_true] at h
      obtain ⟨⟨⟨hname, hbase⟩, hdeclarations⟩, hmethods⟩ := h
      rw [List.all_eq_true] at hmethods
      obtain ⟨hsequence, hvariables⟩ := declarations_written hdeclarations
      have hextends : Base base
          (base.elim [] fun b => [symbolToken l .extendsKeyword, wordToken l b]) := by
        cases base with
        | none => exact .none
        | some b => exact .extends (symbolToken_spells l _) (wordToken_names hbase l)
      exact .mk (symbolToken_spells l _) (wordToken_names hname l) hextends
        (symbolToken_spells l _) hsequence hvariables
        (sequence_of_forall fun n hn => method_written (hmethods n hn)) (symbolToken_spells l _)
  | _ => exact absurd h Bool.false_ne_true

theorem mainClass_written {n : Node} (h : n.isStrictMainClass = true) :
    MainClass false n n.classTokens := by
  cases n with
  | mainClass name method l =>
      rw [isStrictMainClass, Bool.and_eq_true] at h
      exact .mk (symbolToken_spells l _) (wordToken_names h.1 l) (symbolToken_spells l _)
        (mainMethod_written h.2) (symbolToken_spells l _)
  | _ => exact absurd h Bool.false_ne_true

end Node

namespace Program

open Rendering

theorem classes_written {ns : List Node} (h : ns.all Node.isStrictClass = true) :
    Classes false ns (ns.flatMap Node.classTokens) := by
  induction ns with
  | nil => exact .nil
  | cons n ns ih =>
      rw [List.all_cons, Bool.and_eq_true] at h
      exact .cons (Node.class_written h.1) (ih h.2)

/-- The classes of a strict program are written as its tokens, placed where the first of
them is. -/
theorem written_of_isStrict {p : Program} (h : p.isStrict = true) :
    ∃ l, Rendering.Program false ⟨l, p.classes⟩ p.tokens := by
  obtain ⟨l, classes⟩ := p
  cases classes with
  | nil => exact absurd h Bool.false_ne_true
  | cons first others =>
      rw [isStrict, Bool.and_eq_true] at h
      exact ⟨first.location, .mk (Node.mainClass_written h.1) (classes_written h.2)⟩

end Program

end MiniJava
