import MiniJava.Proofs.Grammar.Resilience
/-!
# What is skipped after a failure

After an item that failed a list skips tokens.  Between statements it goes through one semicolon at
most, and between methods it passes groups of braces whole.  But an item that failed on its first
token loses that token before any are counted.  So a stray semicolon costs the statement after it
too, and of a stray group of braces the closing one is left.
-/

namespace MiniJava.Grammar

open Parse

variable {α : Type} {finish : Location} {ahead rest : List Token} {trace : Trace} {e : SyntaxError}

def StalledAt (x : Terminal) (trace : Trace) (rest : List Token) : Prop :=
  trace.tokens = [] ∧ ∃ t ∈ rest.head?, t.terminal = x

/-! ## Between statements -/

/-- Tokens of one statement at most: none but the last of them is a semicolon. -/
def WithinStatement (ts : List Token) : Prop := ∀ t ∈ ts.dropLast, t.terminal ≠ .semicolon

instance (ts : List Token) : Decidable (WithinStatement ts) :=
  inferInstanceAs (Decidable (∀ t ∈ ts.dropLast, _))

namespace WithinStatement

variable {t : Token} {ts : List Token}

theorem cons (ht : t.terminal ≠ .semicolon) (h : WithinStatement ts) :
    WithinStatement (t :: ts) := by
  cases ts with
  | nil => exact List.forall_mem_nil _
  | cons u ts => exact List.forall_mem_cons.2 ⟨ht, h⟩

theorem suffix {left before later : List Token} (h : WithinStatement ts)
    (hsplit : ts ++ left = before ++ t :: later) (ht : t.terminal = .semicolon) :
    later <:+ left := by
  rcases List.append_eq_append_iff.1 hsplit with ⟨skipped, -, rfl⟩ | ⟨passed, rfl, hpassed⟩
  · exact ⟨skipped ++ [t], List.append_assoc skipped [t] later⟩
  · cases passed with
    | nil => exact ⟨[t], hpassed⟩
    | cons u passed =>
        obtain ⟨rfl, rfl⟩ := List.cons.inj hpassed
        cases passed with
        | nil => exact List.suffix_rfl
        | cons u passed =>
            -- the semicolon would be passed with a token behind it
            refine absurd ht (h t ?_)
            rw [List.dropLast_append_of_ne_nil (List.cons_ne_nil _ _)]
            exact List.mem_append_right _ (List.mem_cons_self ..)

end WithinStatement

theorem withinStatement_take_toStatement (ts : List Token) :
    WithinStatement (ts.take (toStatement ts)) := by
  induction ts with
  | nil => exact List.forall_mem_nil _
  | cons t ts ih =>
      rcases toStatement_cons t ts with ⟨-, hstop⟩ | ⟨-, hstop⟩ | ⟨-, hsemicolon, -, hgo⟩
      · rw [hstop]
        exact List.forall_mem_nil _
      · rw [hstop]
        exact List.forall_mem_nil _
      · rw [hgo, List.take_succ_cons]
        exact ih.cons hsemicolon

/-- Where looking for a statement stops: behind a semicolon, at the end of the source, before a
closing brace or where a statement may begin. -/
def AtStatement (passed left : List Token) : Prop :=
  (∃ t ∈ passed.getLast?, t.terminal = .semicolon) ∨
    ∀ t ∈ left.head?, t.terminal = .rightBrace ∨ beginsStatement t = true

theorem atStatement_toStatement (ts : List Token) :
    AtStatement (ts.take (toStatement ts)) (ts.drop (toStatement ts)) := by
  induction ts with
  | nil => exact .inr fun t ht => absurd ht (by simp)
  | cons t ts ih =>
      rcases toStatement_cons t ts with ⟨ht, hstop⟩ | ⟨hsemicolon, hstop⟩ | ⟨-, -, -, hgo⟩
      · rw [hstop]
        refine .inr fun u hu => ?_
        obtain rfl := Option.some.inj hu
        exact ht
      · rw [hstop]
        exact .inl ⟨t, rfl, hsemicolon⟩
      · rw [hgo, List.take_succ_cons, List.drop_succ_cons]
        refine ih.imp_left fun ⟨u, hu, hsemicolon⟩ => ⟨u, ?_, hsemicolon⟩
        rw [List.getLast?_cons, Option.mem_def.1 hu]
        rfl

/-- After an item that failed the list goes on where a statement may begin.  No token is passed behind
a semicolon, and what follows the first semicolon is left, unless the item stalled at a semicolon.
Such a semicolon is lost before any token is passed. -/
theorem recovering_keeps_statements {item : Parse (Option α)}
    (h : item.run finish ahead = ⟨.error e, trace, rest⟩) :
    ∃ lost passed left, Resumes trace rest lost (passed ++ left) ∧
      (recovering toStatement item).run finish ahead =
        ⟨.ok none, trace ++ .report e :: Trace.ofTokens (lost ++ passed), left⟩ ∧
      WithinStatement passed ∧ AtStatement passed left ∧
      (¬ StalledAt .semicolon trace rest →
        WithinStatement (lost ++ passed) ∧
          ∀ before semicolon later, rest = before ++ semicolon :: later →
            semicolon.terminal = .semicolon → later <:+ left) := by
  obtain ⟨lost, more, hresumes, hrun⟩ := recovering_resumes toStatement h
  have hpassed := withinStatement_take_toStatement more
  have hmore := List.take_append_drop (toStatement more) more
  refine ⟨lost, _, _, by rwa [hmore], hrun, hpassed, atStatement_toStatement more,
    fun hread => ?_⟩
  have hskipped : WithinStatement (lost ++ more.take (toStatement more)) := by
    cases hresumes with
    | read => exact hpassed
    | ended => exact hpassed
    | @stalled t _ hnone => exact hpassed.cons fun ht => hread ⟨hnone, t, rfl, ht⟩
  have hrest : rest =
      lost ++ more.take (toStatement more) ++ more.drop (toStatement more) := by
    rw [List.append_assoc, hmore, hresumes.split]
  exact ⟨hskipped, fun before semicolon later hsplit => hskipped.suffix (hrest ▸ hsplit)⟩

/-- An assignment without a value before one that has one: the second one is left. -/
theorem recovering_keeps_statements_assignment :
    let tokens := sourceTokens "Cut" "x = ; y = 1;"
    let place (column : Nat) : Location := ⟨⟨1, column⟩, "Cut"⟩
    let item := some <$> statement
    let e : SyntaxError := ⟨place 5, .noExpression Terminal.semicolon.lexeme⟩
    item.run (place 13) tokens = ⟨.error e, .ofTokens (tokens.take 2), tokens.drop 2⟩ ∧
      ∃ skipped left, tokens.drop 2 = skipped ++ left ∧
        (recovering toStatement item).run (place 13) tokens =
          ⟨.ok none, .ofTokens (tokens.take 2) ++ .report e :: Trace.ofTokens skipped, left⟩ ∧
        WithinStatement skipped ∧ tokens.drop 3 <:+ left := by
  intro tokens place item e
  have hstatement : statement.run (place 13) tokens =
      ⟨.error e, .ofTokens (tokens.take 2), tokens.drop 2⟩ :=
    run_of_outcome (by decide +kernel) (by decide +kernel) (by decide +kernel)
  have hitem : item.run (place 13) tokens =
      ⟨.error e, .ofTokens (tokens.take 2), tokens.drop 2⟩ := by
    rw [show item = _ from map_eq_bind ..]
    exact run_bind_of_error hstatement
  have hread : ¬ StalledAt .semicolon (.ofTokens (tokens.take 2)) (tokens.drop 2) :=
    fun hstalled => absurd hstalled.1 (by decide +kernel)
  obtain ⟨lost, passed, left, hresumes, hrun, -, -, hkept⟩ := recovering_keeps_statements hitem
  obtain ⟨hskipped, hsuffix⟩ := hkept hread
  have hrest : tokens.drop 2 = lost ++ passed ++ left := by
    rw [List.append_assoc, ← hresumes.split]
  have hsplit : tokens.drop 2 = [] ++ ⟨Terminal.semicolon.lexeme, place 5⟩ :: tokens.drop 3 := by
    decide +kernel
  exact ⟨hitem, lost ++ passed, left, hrest, hrun, hskipped, hsuffix _ _ _ hsplit rfl⟩

/-- A block with a stray semicolon before two statements. -/
def straySemicolon : String := "\x7b ; x = 1; y = 2; \x7d"

/-- The first statement is skipped with the semicolon, though it is one by itself, and the block
has the second only. -/
theorem stray_semicolon_costs_statement :
    let tokens := sourceTokens "Stray" straySemicolon
    let place (column : Nat) : Location := ⟨⟨1, column⟩, "Stray"⟩
    let assigned (name : String) (value : Int) (column : Nat) : Node :=
      .binary .assign (.reference name none (place column))
        (.literal (.integer value) (place (column + 4))) (place (column + 2))
    let recovered := (recovering toStatement (some <$> statement)).run (place 20) (tokens.drop 1)
    (statement.run (place 20) (tokens.drop 1)).value.isOk = false ∧
      (statement.run (place 20) (tokens.drop 1)).trace.tokens = [] ∧
      recovered.trace.tokens = (tokens.drop 1).take 5 ∧
      ¬ WithinStatement recovered.trace.tokens ∧
      (statement.run (place 20) (tokens.drop 2)).value = .ok (assigned "x" 1 5) ∧
      (statement.run (place 20) tokens).value = .ok (.block [assigned "y" 2 12] (place 1)) := by
  decide +kernel

/-! ## Between methods -/

/-- Where looking for a method stops: at the end of the source, or where a method may begin or the
class may end. -/
def AtMember (left : List Token) : Prop :=
  ∀ t ∈ left.head?, t.terminal = .publicKeyword ∨ t.terminal = .rightBrace

/-- No brace is closed that was not opened, and none is left open before the end of the source. -/
structure Grouped (passed left : List Token) : Prop where
  nonneg : ∀ n ≤ passed.length, 0 ≤ balance (passed.take n)
  closed : left ≠ [] → balance passed = 0

/-- Wherever the count has come to, it shows how many braces are open there. -/
def CountsBraces (passed left : List Token) : Prop :=
  ∀ before after, passed = before ++ after → ∃ depth : Nat, (depth : Int) = balance before ∧
    toMember 0 (passed ++ left) = before.length + toMember depth (after ++ left)

theorem Grouped.cons {t : Token} {passed left : List Token} (ht : t.brace = 0)
    (h : Grouped passed left) : Grouped (t :: passed) left where
  nonneg n hn := by
    cases n with
    | zero => exact Int.le_refl 0
    | succ n =>
        rw [List.take_succ_cons, balance_cons, ht, Int.zero_add]
        exact h.nonneg n (Nat.le_of_succ_le_succ hn)
  closed hleft := by rw [balance_cons, ht, Int.zero_add, h.closed hleft]

theorem CountsBraces.nonneg {passed left : List Token} (h : CountsBraces passed left) (n : Nat) :
    0 ≤ balance (passed.take n) := by
  obtain ⟨depth, hdepth, -⟩ := h _ _ (List.take_append_drop n passed).symm
  omega

/-- After some tokens that are passed, as many more are as from the depth that they lead to. -/
theorem toMember_depth {depth : Nat} {before after : List Token}
    (h : before.length ≤ toMember depth (before ++ after)) :
    ∃ d : Nat, (d : Int) = depth + balance before ∧
      toMember depth (before ++ after) = before.length + toMember d after := by
  -- the depth that the count has come to is the one to go on with, so it is left general
  induction before generalizing depth with
  | nil => exact ⟨depth, by rw [balance_nil, Int.add_zero], (Nat.zero_add _).symm⟩
  | cons t before ih =>
      rw [List.cons_append] at h ⊢
      rcases toMember_cons depth t (before ++ after) with ⟨-, -, hstop⟩ | ⟨d, hd, hgo⟩
      · rw [hstop] at h
        exact absurd h (Nat.not_succ_le_zero _)
      · rw [hgo] at h
        obtain ⟨d', hd', hcount⟩ := ih (Nat.le_of_succ_le_succ h)
        refine ⟨d', by rw [balance_cons]; omega, ?_⟩
        rw [hgo, hcount, List.length_cons]
        omega

theorem countsBraces_take_toMember (ts : List Token) :
    CountsBraces (ts.take (toMember 0 ts)) (ts.drop (toMember 0 ts)) := by
  intro before after hsplit
  have hle : before.length ≤ toMember 0 ts := by
    have hlength := congrArg List.length hsplit
    rw [List.length_take, List.length_append] at hlength
    omega
  have hts := List.take_append_drop (toMember 0 ts) ts
  rw [hsplit, List.append_assoc] at hts
  rw [hsplit, List.append_assoc]
  generalize ts.drop (toMember 0 ts) = left at hts ⊢
  rw [← hts] at hle
  obtain ⟨d, hd, hcount⟩ := toMember_depth hle
  exact ⟨d, by rw [hd]; omega, hcount⟩

theorem CountsBraces.grouped {passed left : List Token} (h : CountsBraces passed left)
    (hcount : toMember 0 (passed ++ left) = passed.length) :
    Grouped passed left ∧ AtMember left := by
  obtain ⟨depth, hdepth, hstops⟩ := h passed [] (List.append_nil _).symm
  rw [hcount, List.nil_append] at hstops
  have hnone : toMember depth left = 0 := by omega
  cases left with
  | nil =>
      refine ⟨⟨fun n _ => h.nonneg n, fun hne => absurd rfl hne⟩, fun t ht => ?_⟩
      exact absurd ht (by simp)
  | cons t left =>
      rcases toMember_cons depth t left with ⟨rfl, ht, -⟩ | ⟨_, -, hgo⟩
      · refine ⟨⟨fun n _ => h.nonneg n, fun _ => hdepth.symm⟩, fun u hu => ?_⟩
        obtain rfl := Option.some.inj hu
        exact ht
      · exact absurd (hgo.symm.trans hnone) (Nat.succ_ne_zero _)

/-- After a method that failed, braces are counted as they nest, whole groups are passed, and the
class goes on where a method may begin or the class may end, unless the method stalled at an opening
brace.  Such a brace is lost before any token is passed. -/
theorem recovering_passes_groups (h : method.run finish ahead = ⟨.error e, trace, rest⟩)
    (hgo : (frontOf finish ahead).terminal ≠ .rightBrace) :
    ∃ lost passed left, Resumes trace rest lost (passed ++ left) ∧
      (recovering (toMember 0) (some <$> method)).run finish ahead =
        ⟨.ok none, trace ++ .report e :: Trace.ofTokens (lost ++ passed), left⟩ ∧
      CountsBraces passed left ∧ Grouped passed left ∧ AtMember left ∧
      (¬ StalledAt .leftBrace trace rest → Grouped (lost ++ passed) left) := by
  have hitem : (some <$> method).run finish ahead = ⟨.error e, trace, rest⟩ := by
    rw [map_eq_bind]
    exact run_bind_of_error h
  obtain ⟨lost, more, hresumes, hrun⟩ := recovering_resumes (toMember 0) hitem
  have hcounts := countsBraces_take_toMember more
  have hmore := List.take_append_drop (toMember 0 more) more
  have hlength : toMember 0 more = (more.take (toMember 0 more)).length := by
    rw [List.length_take, Nat.min_eq_left (toMember_le 0 more)]
  obtain ⟨hgrouped, hmember⟩ := hcounts.grouped (by rwa [hmore])
  refine ⟨lost, _, _, by rwa [hmore], hrun, hcounts, hgrouped, hmember, fun hread => ?_⟩
  cases hresumes with
  | read => exact hgrouped
  | ended => exact hgrouped
  | @stalled t more hnone =>
      -- the token that is lost stands where the round began, and no round begins at a closing brace
      have hahead := method.conserves finish ahead
      rw [h, hnone, List.nil_append] at hahead
      rw [← hahead] at hgo
      have hleft : t.terminal ≠ .leftBrace := fun ht => hread ⟨hnone, t, rfl, ht⟩
      exact hgrouped.cons (Token.brace_of_ne hleft hgo)

/-- The braces after a stray parenthesis are passed whole, with the `public` inside them. -/
theorem recovering_passes_groups_body :
    let tokens := sourceTokens "Body" "( \x7b a; \x7b b; \x7d public c; \x7d public int g"
    let place (column : Nat) : Location := ⟨⟨1, column⟩, "Body"⟩
    let e : SyntaxError :=
      ⟨place 1, .expected (.terminal .publicKeyword) Terminal.leftParen.lexeme⟩
    method.run (place 41) tokens = ⟨.error e, [], tokens⟩ ∧
      (frontOf (place 41) tokens).terminal ≠ .rightBrace ∧
      ∃ lost passed left, Resumes [] tokens lost (passed ++ left) ∧
        (recovering (toMember 0) (some <$> method)).run (place 41) tokens =
          ⟨.ok none, .report e :: Trace.ofTokens (lost ++ passed), left⟩ ∧
        CountsBraces passed left ∧ AtMember left ∧ Grouped (lost ++ passed) left := by
  intro tokens place e
  have hmethod : method.run (place 41) tokens = ⟨.error e, [], tokens⟩ :=
    run_of_outcome (by decide +kernel) (by decide +kernel) (by decide +kernel)
  have hgo : (frontOf (place 41) tokens).terminal ≠ .rightBrace := by decide +kernel
  have hread : ¬ StalledAt .leftBrace [] tokens := by
    rintro ⟨-, t, ht, hleft⟩
    obtain rfl : ⟨Terminal.leftParen.lexeme, place 1⟩ = t := Option.some.inj ht
    exact absurd hleft (by decide)
  obtain ⟨lost, passed, left, hresumes, hrun, hcounts, -, hmember, hgrouped⟩ :=
    recovering_passes_groups hmethod hgo
  exact ⟨hmethod, hgo, lost, passed, left, hresumes, hrun, hcounts, hmember, hgrouped hread⟩

/-- A class with a stray group of braces between two methods. -/
def strayGroup : String :=
  "class A \x7b public int f() \x7b return 1; \x7d \x7b x = 1; \x7d public int g() \x7b return 2; \x7d \x7d"

/-- The group is passed up to its own closing brace, which ends the class: the second method is
lost, though it is one by itself. -/
theorem stray_group_costs_method :
    let tokens := sourceTokens "Group" strayGroup
    let place (column : Nat) : Location := ⟨⟨1, column⟩, "Group"⟩
    let returning (name : String) (value : Int) (column : Nat) : Node :=
      .methodDeclaration ["public"] "int" name [] (.methodBody [] [] (some (.returnStatement
        (.literal (.integer value) (place (column + 24))) (place (column + 17))))
        (place (column + 15))) (place column)
    let recovered := (recovering (toMember 0) (some <$> method)).run (place 81) (tokens.drop 13)
    (method.run (place 81) (tokens.drop 13)).value.isOk = false ∧
      recovered.trace.tokens = (tokens.drop 13).take 5 ∧ recovered.rest = tokens.drop 18 ∧
      tokens.drop 18 ≠ [] ∧ ¬ Balanced recovered.trace.tokens ∧
      (method.run (place 81) (tokens.drop 19)).value = .ok (returning "g" 2 51) ∧
      (classDeclaration.run (place 81) tokens).value =
        .ok (.classDeclaration "A" none [] [returning "f" 1 11] (place 1)) := by
  decide +kernel

end MiniJava.Grammar
