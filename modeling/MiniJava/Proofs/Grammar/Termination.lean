import MiniJava.Grammar.Parser
import MiniJava.Proofs.Grammar.Progress
import MiniJava.Proofs.Production.Descent
/-!
# Termination

Parsing goes forward and comes to an end.  A production that yields a node has taken tokens
from the stream, and so has each round of a list, however its item went.  Every recursion of
the grammar is entered again with fewer tokens ahead, so none of them needs its guard.
-/

namespace MiniJava.Grammar

open Parse (current advance atEnd fail fix frontOf)

/-! ## Tokens taken from the stream -/

namespace Parser

variable {α : Type}

@[simp] theorem emitted_next (s : Lexical.TokenStream) : s.next.emitted = s.emitted + 1 := by
  unfold Lexical.TokenStream.next
  split <;> rfl

theorem emitted_follow (trace : Trace) (s : Lexical.TokenStream) :
    (trace.foldl Step.follow s).emitted = s.emitted + trace.tokens.length := by
  induction trace generalizing s with
  | nil => rfl
  | cons step trace ih =>
      rw [List.foldl_cons, ih]
      cases step with
      | read t =>
          rw [Step.follow, emitted_next, Trace.tokens_read, List.length_cons]
          omega
      | report e => rfl

theorem emitted_run (q : Parser) (p : Parse α) :
    (q.run p).2.stream.emitted =
      q.stream.emitted + (p.run q.finish q.ahead).trace.tokens.length :=
  emitted_follow _ _

theorem emitted_lt (q : Parser) {p : Parse α} (h : Advances p) {a : α}
    (ha : (q.run p).1 = .ok a) : q.stream.emitted < (q.run p).2.stream.emitted := by
  have htokens := List.length_pos_iff.2 (h _ rfl ha)
  rw [emitted_run]
  omega

end Parser

/-! ## Productions -/

/-- The productions that begin with a token of their own. -/
def constructs : List (Parse Node) :=
  [statement, expression, operand, primary operand, mainClass, mainMethod, classDeclaration,
    method, methodBody true, methodBody false, block statement]

theorem advances_constructs : ∀ p ∈ constructs, Advances p := by
  have hexpect : ∀ {x : Terminal} {f : Token → Parse Node}, x ≠ .unreserved →
      Advances (expect x >>= f) := fun hx => advances_bind (advances_expect hx)
  simp only [constructs, List.forall_mem_cons, List.not_mem_nil, false_implies, implies_true]
  exact ⟨advances_statement, advances_expression, advances_operand, advances_primary,
    hexpect (by decide), hexpect (by decide), hexpect (by decide), hexpect (by decide),
    hexpect (by decide), hexpect (by decide), hexpect (by decide), trivial⟩

/-! ## Loops -/

/-- What makes up a list of nodes: where it stops, where it is resumed after a failure, and
its items. -/
structure Loop where
  stops : Token → Bool
  count : List Token → Nat
  item : Parse (Option Node)

namespace Loop

def round (l : Loop) : Parse (Option Node) := recovering l.count l.item

def body (l : Loop) (self : Unit → Parse (List Node)) (_ : Unit) : Parse (List Node) := do
  let done ← atEnd
  let t ← current
  if done || l.stops t then pure []
  else
    let found ← l.round
    (found.toList ++ ·) <$> self ()

def classes : Loop := ⟨fun _ => false, toStatement, topItem⟩

def fields : Loop := ⟨endsVariables, toStatement, memberVariable⟩

def methods : Loop := ⟨(·.terminal == .rightBrace), toMember 0, some <$> method⟩

def statements (needsReturn : Bool) : Loop :=
  ⟨endsBody needsReturn, toStatement, some <$> statement⟩

def inBlock : Loop := ⟨(·.terminal == .rightBrace), toStatement, some <$> statement⟩

end Loop

/-- The lists of the grammar that go on after a failure. -/
def loops : List Loop :=
  [.classes, .fields, .methods, .statements true, .statements false, .inBlock]

theorem advances_loops : ∀ l ∈ loops, Advances l.item := by
  have hsome : ∀ {p : Parse Node}, Advances p → Advances (some <$> p) :=
    fun hp front => advancesAt_map (hp front)
  have hmethod : Advances method := advances_bind (advances_expect (by decide))
  simp only [loops, List.forall_mem_cons, List.not_mem_nil, false_implies, implies_true]
  exact ⟨advances_topItem, advances_bind advances_statement, hsome hmethod,
    hsome advances_statement, hsome advances_statement, hsome advances_statement, trivial⟩

/-! ## Recursions -/

def statementBody (self : Unit → Parse Node) (_ : Unit) : Parse Node := statementOf (self ())

def operandBody (self : Unit → Parse Node) (_ : Unit) : Parse Node := do
  let left ← primary (self ())
  members (self ()) left

def climbBody (operand : Parse Node) (self : Int × Node → Parse Node) : Int × Node → Parse Node :=
  fun (least, left) => do
    let t ← current
    if t.precedence < least ∨ t.precedence < 0 then pure left
    else
      let _ ← advance
      match binaryOperator? t.terminal with
      | none => fail ⟨t.location, .unsupported (.binaryOperator t.toLexeme)⟩
      | some operator =>
        let right ← operand
        let next ← current
        let right ←
          if t.precedence < next.precedence then self (t.precedence + 1, right) else pure right
        self (least, .binary operator left right t.location)

def membersBody (operand : Parse Node) (self : Node → Parse Node) (left : Node) : Parse Node := do
  let t ← current
  if t.terminal = .dot then
    let _ ← advance
    let member ← memberName operand
    self (.binary .member left member t.location)
  else pure left

def commaBody {α : Type} (item : Parse α) (self : Unit → Parse (List α)) (_ : Unit) :
    Parse (List α) := do
  let first ← item
  if ← accept .comma then (first :: ·) <$> self () else pure [first]

def attributesBody (self : Unit → Parse (List String)) (_ : Unit) : Parse (List String) := do
  let t ← current
  if isAttribute t then
    let _ ← advance
    (t.text :: ·) <$> self ()
  else pure []

/-- The productions of the grammar that are defined in terms of themselves, with the bodies
that define them. -/
inductive Recursion :
    {α β : Type} → (β → Parse α) → ((β → Parse α) → β → Parse α) → Prop
  | statement : Recursion (fun _ => statement) statementBody
  | operand : Recursion (fun _ => operand) operandBody
  | climb : Recursion (climb operand) (climbBody operand)
  | members : Recursion (members operand) (membersBody operand)
  | arguments : Recursion (fun _ => commaSeparated expression) (commaBody expression)
  | parameters : Recursion (fun _ => commaSeparated declaration) (commaBody declaration)
  | attributes : Recursion (fun _ => attributes) attributesBody
  | classes : Recursion (fun _ => otherClasses) Loop.classes.body
  | fields : Recursion (fun _ => memberVariables) Loop.fields.body
  | methods : Recursion (fun _ => memberMethods) Loop.methods.body
  | statements (needsReturn : Bool) :
      Recursion (fun _ => items (endsBody needsReturn) toStatement (some <$> Grammar.statement))
        (Loop.statements needsReturn).body
  | inBlock : Recursion (fun _ => blockItems Grammar.statement) Loop.inBlock.body

theorem Recursion.eq_fix {α β : Type} {p : β → Parse α} {body : (β → Parse α) → β → Parse α}
    (h : Recursion p body) : p = fix body := by
  cases h <;> rfl

section

variable {n : Nat} {operand operand' : Parse Node}

theorem sameBelow_climbBody (hoperand : SameBelow n operand operand')
    {self self' : Int × Node → Parse Node} (hself : ∀ b, SameBelow n (self b) (self' b))
    (b : Int × Node) :
    SameBelow (n + 1) (climbBody operand self b) (climbBody operand' self' b) := by
  obtain ⟨least, left⟩ := b
  refine sameBelow_current_bind fun t => ?_
  split
  · exact sameBelow_refl _ _ t
  · next hgo =>
    refine sameBelowAt_advancing_bind (sameBelow_refl _ _ t) (advancesAt_advance ?_) fun _ => ?_
    · rintro l rfl
      exact hgo (.inr (Int.negSucc_lt_zero 0))
    · split
      · exact sameBelow_refl n _
      · refine sameBelow_bind hoperand fun right => sameBelow_current_bind fun next => ?_
        split
        · exact sameBelow_bind (hself _) (fun _ => hself _) next
        · exact hself _ next

theorem sameBelow_climb (h : SameBelow n operand operand') (b : Int × Node) :
    SameBelow n (climb operand b) (climb operand' b) :=
  sameBelow_fix (fun _ _ hself b => (sameBelow_climbBody h hself b).mono (Nat.le_succ n)) b

theorem sameBelow_expressionOf (h : SameBelow n operand operand') :
    SameBelow n (expressionOf operand) (expressionOf operand') :=
  sameBelow_bind h fun _ => sameBelow_climb h _

theorem sameBelow_arguments (h : SameBelow n operand operand') :
    SameBelow n (arguments operand) (arguments operand') := by
  refine sameBelow_bind (sameBelow_refl n _) fun _ => ?_
  refine sameBelow_bind (sameBelow_refl n _) fun _ => ?_
  split
  · exact sameBelow_refl n _
  · refine sameBelow_bind (sameBelow_commaSeparated (sameBelow_expressionOf h)) fun _ => ?_
    exact sameBelow_refl n _

theorem sameBelow_bracketed (h : SameBelow n operand operand') (name : Token) :
    SameBelow n (bracketed operand name) (bracketed operand' name) := by
  refine sameBelow_bind (sameBelow_refl n _) fun _ => ?_
  split
  · exact sameBelow_refl n _
  · exact sameBelow_bind (sameBelow_expressionOf h) fun _ => sameBelow_refl n _

theorem sameBelow_named (h : SameBelow n operand operand') :
    SameBelow (n + 1) (named operand) (named operand') := by
  refine sameBelow_after (advances_expectKind (by decide)) fun name => ?_
  refine sameBelow_current_bind fun t => ?_
  split
  · exact sameBelow_refl n _ t
  split
  · exact sameBelow_bind (sameBelow_arguments h) (fun _ => sameBelow_refl n _) t
  · refine sameBelow_bind (sameBelow_refl n _) (fun _ => ?_) t
    split
    · exact sameBelow_bracketed h name
    · exact sameBelow_refl n _

theorem sameBelow_allocation (h : SameBelow n operand operand') :
    SameBelow (n + 1) (allocation operand) (allocation operand') := by
  refine sameBelow_after (advances_expect (by decide)) fun _ => ?_
  refine sameBelow_bind (sameBelow_refl n _) fun type => ?_
  refine sameBelow_bind (sameBelow_refl n _) fun _ => ?_
  split
  · exact sameBelow_bind (sameBelow_expressionOf h) fun _ => sameBelow_refl n _
  split
  · exact sameBelow_refl n _
  · exact sameBelow_bind (sameBelow_arguments h) fun _ => sameBelow_refl n _

theorem sameBelow_primary (h : SameBelow n operand operand') :
    SameBelow (n + 1) (primary operand) (primary operand') := by
  refine sameBelow_current_bind fun t => ?_
  split
  · exact sameBelow_refl _ _ t
  · exact sameBelow_refl _ _ t
  · exact sameBelow_refl _ _ t
  · exact sameBelow_refl _ _ t
  · exact sameBelow_refl _ _ t
  · exact sameBelow_named h t
  · unfold keywordPrimary
    split
    · exact sameBelow_refl _ _ t
    · exact sameBelow_allocation h t
    · exact sameBelow_refl _ _ t
    · exact sameBelow_refl _ _ t
  · split
    · refine sameBelow_after (advances_expect (by decide)) (fun _ => ?_) t
      exact sameBelow_bind h fun _ => sameBelow_refl n _
    · exact sameBelow_refl _ _ t
  · split
    · refine sameBelow_after (advances_expect (by decide)) (fun _ => ?_) t
      exact sameBelow_bind (sameBelow_expressionOf h) fun _ => sameBelow_refl n _
    · exact sameBelow_refl _ _ t
  · exact sameBelow_refl _ _ t
  · exact sameBelow_refl _ _ t
  · exact sameBelow_refl _ _ t

theorem sameBelow_memberName (h : SameBelow n operand operand') :
    SameBelow n (memberName operand) (memberName operand') := by
  refine sameBelow_current_bind fun t => ?_
  split
  · exact sameBelow_refl n _ t
  split
  · exact (sameBelow_named h).mono (Nat.le_succ n) t
  · exact sameBelow_refl n _ t

theorem sameBelow_membersBody (hoperand : SameBelow n operand operand')
    {self self' : Node → Parse Node} (hself : ∀ b, SameBelow n (self b) (self' b)) (left : Node) :
    SameBelow (n + 1) (membersBody operand self left) (membersBody operand' self' left) := by
  refine sameBelow_current_bind fun t => ?_
  split
  · next ht =>
    refine sameBelowAt_advancing_bind (sameBelow_refl _ _ t) (advancesAt_advance ?_) fun _ => ?_
    · rintro l rfl
      exact absurd ht (show Terminal.unreserved ≠ .dot by decide)
    · exact sameBelow_bind (sameBelow_memberName hoperand) fun _ => hself _
  · exact sameBelow_refl _ _ t

theorem sameBelow_members (h : SameBelow n operand operand') (left : Node) :
    SameBelow n (members operand left) (members operand' left) :=
  sameBelow_fix (fun _ _ hself b => (sameBelow_membersBody h hself b).mono (Nat.le_succ n)) left

end

theorem guarding_operandBody : Guarding operandBody := by
  intro n self self' hself _ front
  refine sameBelowAt_advancing_bind (sameBelow_primary (hself ()) front) (advances_primary front) ?_
  exact fun left => sameBelow_members (hself ()) left

theorem guarding_commaBody {α : Type} {item : Parse α} (h : Advances item) :
    Guarding (commaBody item) := by
  intro n self self' hself _
  refine sameBelow_after h fun first => sameBelow_bind (sameBelow_refl n _) fun more => ?_
  split
  · exact sameBelow_map (hself ())
  · exact sameBelow_refl n _

theorem guarding_attributesBody : Guarding attributesBody := by
  intro n self self' hself _
  refine sameBelow_current_bind fun t => ?_
  split
  · next ht =>
    refine sameBelowAt_advancing_bind (sameBelow_refl _ _ t) (advancesAt_advance ?_) fun _ => ?_
    · rintro l rfl
      exact absurd ht (by simp [isAttribute, Token.endOfFile, Lexeme.endOfFile])
    · exact sameBelow_map (hself ())
  · exact sameBelow_refl _ _ t

theorem guarding_statementBody : Guarding statementBody := by
  intro n self self' hself _
  have hself := hself ()
  have hafter : ∀ {x : Terminal} {f f' : Token → Parse Node}, x ≠ .unreserved →
      (∀ t, SameBelow n (f t) (f' t)) → SameBelow (n + 1) (expect x >>= f) (expect x >>= f') :=
    fun hx => sameBelow_after (advances_expect hx)
  have hskip : ∀ {α : Type} {p : Parse α} {f f' : α → Parse Node},
      (∀ a, SameBelow n (f a) (f' a)) → SameBelow n (p >>= f) (p >>= f') :=
    fun hf => sameBelow_bind (sameBelow_refl n _) hf
  refine sameBelow_current_bind fun t => ?_
  split
  · refine hafter (by decide) (fun _ => hskip fun _ => ?_) t
    refine sameBelow_bind hself fun _ => hskip fun _ => ?_
    split
    · exact sameBelow_bind hself fun _ => sameBelow_refl n _
    · exact sameBelow_refl n _
  · refine hafter (by decide) (fun _ => hskip fun _ => ?_) t
    exact sameBelow_bind hself fun _ => sameBelow_refl n _
  · refine hafter (by decide) (fun _ => hskip fun _ => hskip fun _ => hskip fun _ => ?_) t
    refine hskip fun _ => hskip fun _ => hskip fun _ => hskip fun _ => ?_
    exact sameBelow_bind hself fun _ => sameBelow_refl n _
  · exact sameBelow_refl _ _ t
  · exact sameBelow_refl _ _ t
  · refine hafter (by decide) (fun _ => ?_) t
    exact sameBelow_bind (sameBelow_items (sameBelow_map hself)) fun _ => sameBelow_refl n _
  · exact sameBelow_refl _ _ t

theorem statement_eq : statement = statementOf statement := guarding_statementBody.fix_eq ()

/-- A round of a list reads a token before the list is entered again. -/
theorem Loop.guarding_body {l : Loop} (h : Advances l.item) : Guarding l.body := by
  intro n self self' hself _ front finish ahead _ hlt
  have hrun : ∀ self : Unit → Parse (List Node), (l.body self ()).run finish ahead =
      (if ahead.isEmpty || l.stops (frontOf finish ahead) then (pure [] : Parse (List Node))
        else l.round >>= fun found => (found.toList ++ ·) <$> self ()).run finish ahead :=
    fun _ => rfl
  rw [hrun, hrun]
  split
  · rfl
  · next hgo =>
    rw [Bool.or_eq_true, not_or, List.isEmpty_iff] at hgo
    obtain ⟨found, trace, rest, hround, htokens⟩ : ∃ found trace rest,
        l.round.run finish ahead = ⟨.ok found, trace, rest⟩ ∧ trace.tokens ≠ [] :=
      recovering_advances (h _) hgo.1
    have hrest := length_rest_lt hround htokens
    have hothers : ((found.toList ++ ·) <$> self ()).run finish rest =
        ((found.toList ++ ·) <$> self' ()).run finish rest :=
      sameBelow_map (hself ()) _ rfl (by omega)
    show (l.round.run finish ahead).andThen _ = (l.round.run finish ahead).andThen _
    rw [hround, Outcome.andThen, Outcome.andThen, hothers]

/-- Every production that is defined in terms of itself reads a token before it is entered
again. -/
theorem Recursion.guarding {α β : Type} {p : β → Parse α} {body : (β → Parse α) → β → Parse α}
    (h : Recursion p body) : Guarding body := by
  have hloop : ∀ l ∈ loops, Guarding l.body := fun l hl => Loop.guarding_body (advances_loops l hl)
  cases h with
  | statement => exact guarding_statementBody
  | operand => exact guarding_operandBody
  | climb => exact fun n _ _ hself b => sameBelow_climbBody (sameBelow_refl n _) hself b
  | members => exact fun n _ _ hself b => sameBelow_membersBody (sameBelow_refl n _) hself b
  | arguments => exact guarding_commaBody advances_expression
  | parameters =>
      exact guarding_commaBody (advances_current_bind fun t => advances_bind advances_typeName t)
  | attributes => exact guarding_attributesBody
  | classes => exact hloop _ (by simp [loops])
  | fields => exact hloop _ (by simp [loops])
  | methods => exact hloop _ (by simp [loops])
  | statements needsReturn => exact hloop _ (by cases needsReturn <;> simp [loops])
  | inBlock => exact hloop _ (by simp [loops])

/-! ## Parsers -/

/-- A list that neither stops nor is at the end takes tokens in its next round. -/
theorem Loop.round_takes {l : Loop} (h : Advances l.item) (q : Parser)
    (hend : q.stream.current.isEndOfFile = false) :
    ∃ found q', q.run l.round = (.ok found, q') ∧ q.stream.emitted < q'.stream.emitted := by
  have hne : q.ahead ≠ [] := by
    simp [Parser.ahead, hend]
  obtain ⟨found, trace, rest, hround, htokens⟩ : ∃ found trace rest,
      l.round.run q.finish q.ahead = ⟨.ok found, trace, rest⟩ ∧ trace.tokens ≠ [] :=
    recovering_advances (h _) hne
  have hvalue : (q.run l.round).1 = .ok found := by
    rw [Parser.run, hround]
  have hemitted := q.emitted_run l.round
  have hpos := List.length_pos_iff.2 htokens
  rw [hround] at hemitted
  refine ⟨found, (q.run l.round).2, Prod.ext hvalue rfl, ?_⟩
  rw [hemitted]
  exact Nat.lt_add_of_pos_right hpos

/-- In every state of a parser: a production that yields a node has taken tokens, and so has
each round of a list, whether its item is kept, dropped or resumed after; a production defined
in terms of itself is entered no more often than there are tokens ahead, so whatever stands
below that depth does not matter; and a program comes of what is ahead. -/
theorem parsing_progresses :
    (∀ p ∈ constructs, ∀ (q q' : Parser) (node : Node), q.run p = (.ok node, q') →
      q.stream.emitted < q'.stream.emitted) ∧
    (∀ l ∈ loops, ∀ q : Parser, q.stream.current.isEndOfFile = false →
      ∃ found q', q.run l.round = (.ok found, q') ∧ q.stream.emitted < q'.stream.emitted) ∧
    (∀ {α β : Type} {p : β → Parse α} {body : (β → Parse α) → β → Parse α}, Recursion p body →
      ∀ (bottom : β → Parse α) (n : Nat) (b : β) (q : Parser), q.ahead.length < n →
        q.run (unfolded body bottom n b) = q.run (p b)) ∧
    ∀ q : Parser, ∃ found, (q.run program).1 = .ok found := by
  refine ⟨?_, ?_, ?_, ?_⟩
  · intro p hp q q' node hrun
    have h := q.emitted_lt (advances_constructs p hp) (congrArg Prod.fst hrun)
    rwa [hrun] at h
  · exact fun l hl q hend => Loop.round_takes (advances_loops l hl) q hend
  · intro α β p body hbody bottom n b q hlt
    rw [Parser.run, Parser.run, hbody.eq_fix, hbody.guarding.descends bottom n b _ rfl hlt]
  · intro q
    obtain ⟨found, trace, hprogram⟩ := program_ok q.finish q.ahead
    exact ⟨found, by rw [Parser.run, hprogram]⟩

/-- A closing brace outside every class, where skipping to a statement would stop at once. -/
theorem parsing_progresses_stray_brace :
    let q := Parser.ofStream (.ofText "Stray" "\x7d \x7d")
    Loop.classes ∈ loops ∧ q.stream.current.isEndOfFile = false ∧
      ∃ found q', q.run Loop.classes.round = (.ok found, q') ∧
        q.stream.emitted < q'.stream.emitted := by
  intro q
  have hmem : Loop.classes ∈ loops := by simp [loops]
  have hend : q.stream.current.isEndOfFile = false := by decide +kernel
  exact ⟨hmem, hend, parsing_progresses.2.1 _ hmem q hend⟩

end MiniJava.Grammar
