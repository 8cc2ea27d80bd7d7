import MiniJava.Proofs.Grammar.Nesting
import MiniJava.Proofs.Grammar.SelfContained
import MiniJava.Proofs.Rendering.StatementCompleteness
import MiniJava.Proofs.Rendering.StatementSoundness
/-!
# Recovery inside a block

A malformed statement may be anything up to a `;`.  Statements read from it stop at that `;`
or before it, and what is skipped after a failure ends there too, so the list of a block comes
to the token after it.  A good statement that begins there is read as it is read alone.
-/

namespace MiniJava

def Token.Loose (t : Token) : Prop :=
  t.terminal ∉ [Terminal.leftBrace, .rightBrace, .semicolon, .forKeyword, .elseKeyword]

instance (t : Token) : Decidable t.Loose := inferInstanceAs (Decidable (_ ∉ _))

theorem Token.Loose.ne {t : Token} {x : Terminal} (h : t.Loose)
    (hx : x ∈ [Terminal.leftBrace, .rightBrace, .semicolon, .forKeyword, .elseKeyword]) :
    t.terminal ≠ x := by
  rintro rfl
  exact h hx

def LooseTokens (ts : List Token) : Prop := ∀ t ∈ ts, t.Loose

instance (ts : List Token) : Decidable (LooseTokens ts) :=
  inferInstanceAs (Decidable (∀ t ∈ ts, _))

namespace Grammar

open Parse

variable {α β : Type}

/-- The semicolon of a malformed statement, and what may come before it and after it. -/
structure Stretch (loose : List Token) (semicolon : Token) (later : List Token) : Prop where
  isLoose : LooseTokens loose
  isSemicolon : semicolon.terminal = .semicolon
  noElse : ∀ finish, (frontOf finish later).terminal ≠ .elseKeyword
  wellFormed : ∀ t ∈ loose ++ semicolon :: later, t.WellFormed

/-- Where a run that begins among loose tokens before a semicolon ends: before the semicolon,
with a loose token left unless it failed, or right after the semicolon, if it yields a value. -/
inductive StopsBy (semicolon : Token) (later : List Token) : Outcome α → Prop
  | failed {e trace left} (h : LooseTokens left) :
      StopsBy semicolon later ⟨.error e, trace, left ++ semicolon :: later⟩
  | short {a trace left} (h : LooseTokens left) (hne : left ≠ []) :
      StopsBy semicolon later ⟨.ok a, trace, left ++ semicolon :: later⟩
  | whole {a trace} : StopsBy semicolon later ⟨.ok a, trace, later⟩

def Stops (p : Parse α) : Prop :=
  ∀ ⦃finish loose semicolon later⦄, Stretch loose semicolon later →
    StopsBy semicolon later (p.run finish (loose ++ semicolon :: later))

def Passes (p : Parse α) : Prop := Consumes p fun ts => ∀ t ∈ ts, t.terminal ≠ .semicolon

/-! ## Runs before a semicolon -/

section

variable {loose later : List Token} {semicolon : Token}

theorem Stretch.front_ne (h : Stretch loose semicolon later) (finish : Location) {x : Terminal}
    (hx : x ∈ [Terminal.leftBrace, .rightBrace, .forKeyword, .elseKeyword]) :
    (frontOf finish (loose ++ semicolon :: later)).terminal ≠ x := by
  cases loose with
  | nil =>
      rw [List.nil_append, frontOf, List.headD_cons, h.isSemicolon]
      rintro rfl
      exact absurd hx (by decide)
  | cons t loose =>
      refine (h.isLoose t (List.mem_cons_self ..)).ne ?_
      revert hx
      cases x <;> decide

/-- What is left of a stretch, when no semicolon was read, is a stretch. -/
theorem Stretch.after_passes {p : Parse α} (hp : Passes p) (h : Stretch loose semicolon later)
    (finish : Location) :
    ∃ left, (p.run finish (loose ++ semicolon :: later)).rest = left ++ semicolon :: later ∧
      Stretch left semicolon later := by
  have hread := @hp _ finish _ h.wellFormed rfl
  have hsplit := p.conserves finish (loose ++ semicolon :: later)
  have hleft : ∃ left, (p.run finish (loose ++ semicolon :: later)).rest =
      left ++ semicolon :: later ∧ ∀ t ∈ left, t ∈ loose := by
    rcases List.append_eq_append_iff.1 hsplit with
      ⟨left, hloose, hrest⟩ | ⟨passed, htokens, hpassed⟩
    · exact ⟨left, hrest, fun t ht => hloose ▸ List.mem_append_right _ ht⟩
    · cases passed with
      | nil => exact ⟨[], hpassed.symm, List.forall_mem_nil _⟩
      | cons t passed =>
          rw [List.cons_append, List.cons.injEq] at hpassed
          obtain ⟨rfl, -⟩ := hpassed
          have hmem := htokens ▸ List.mem_append_right _ (List.mem_cons_self ..)
          exact absurd h.isSemicolon (hread _ hmem)
  obtain ⟨left, hrest, hmem⟩ := hleft
  refine ⟨left, hrest, fun t ht => h.isLoose t (hmem t ht), h.isSemicolon, h.noElse, ?_⟩
  exact fun t ht => h.wellFormed t (mem_ahead_of_mem_rest p finish (hrest ▸ ht))

theorem StopsBy.prepend {o : Outcome α} (h : StopsBy semicolon later o) (trace : Trace) :
    StopsBy semicolon later ⟨o.value, trace ++ o.trace, o.rest⟩ := by
  cases h with
  | failed h => exact .failed h
  | short h hne => exact .short h hne
  | whole => exact .whole

end

section

variable {p : Parse α} {f : α → Parse β}

theorem stops_bind (hp : Passes p) (hf : ∀ a, Stops (f a)) : Stops (p >>= f) := by
  intro finish loose semicolon later h
  obtain ⟨left, hrest, hleft⟩ := h.after_passes hp finish
  rcases run_bind_cases p f finish (loose ++ semicolon :: later) with
    ⟨e, trace, rest, hrun, hbind⟩ | ⟨a, trace, rest, hrun, hbind⟩
  · rw [hrun] at hrest
    subst hrest
    rw [hbind]
    exact .failed hleft.isLoose
  · rw [hrun] at hrest
    subst hrest
    rw [hbind]
    exact (hf a hleft).prepend trace

theorem stops_current_bind {f : Token → Parse β}
    (hf : ∀ t : Token, t.terminal ≠ .forKeyword → t.terminal ≠ .leftBrace → Stops (f t)) :
    Stops (current >>= f) := fun finish _ _ _ h =>
  hf _ (h.front_ne finish (by decide)) (h.front_ne finish (by decide)) h

theorem stops_map {g : α → β} (hp : Stops p) : Stops (g <$> p) := by
  intro finish loose semicolon later h
  have hstops := @hp finish _ _ _ h
  show StopsBy semicolon later
    (⟨(p.run finish _).value.map g, (p.run finish _).trace, (p.run finish _).rest⟩ : Outcome β)
  generalize p.run finish (loose ++ semicolon :: later) = o at hstops
  cases hstops with
  | failed h => exact .failed h
  | short h hne => exact .short h hne
  | whole => exact .whole

theorem stops_then {g : α → β} (hp : Stops p) : Stops (p >>= fun a => pure (g a)) := by
  rw [← map_eq_bind]
  exact stops_map hp

theorem stops_semicolon {g : Token → β} : Stops (expect .semicolon >>= fun t => pure (g t)) := by
  refine stops_then ?_
  intro finish loose semicolon later h
  cases loose with
  | nil =>
      have hread : (expect .semicolon).Reads finish [semicolon] later semicolon :=
        (reads_expect (by decide)).2 ⟨rfl, h.isSemicolon⟩
      rw [List.nil_append, ← List.singleton_append, hread]
      exact .whole
  | cons t loose =>
      have ht : ¬ (t.terminal == .semicolon) = true := fun heq =>
        (h.isLoose t (List.mem_cons_self ..)).ne (by decide) (beq_iff_eq.1 heq)
      show StopsBy semicolon later ((if t.terminal == .semicolon then advance
        else refuse (.terminal .semicolon)).run finish (t :: loose ++ semicolon :: later))
      rw [if_neg ht]
      exact .failed h.isLoose

theorem stops_optionalSemicolon {b : β} : Stops (accept .semicolon >>= fun _ => pure b) := by
  refine stops_then ?_
  intro finish loose semicolon later h
  cases loose with
  | nil =>
      rw [List.nil_append, accept_run_cons, if_pos h.isSemicolon]
      exact .whole
  | cons t loose =>
      rw [List.cons_append, accept_run_cons,
        if_neg ((h.isLoose t (List.mem_cons_self ..)).ne (by decide)), ← List.cons_append]
      exact .short h.isLoose (List.cons_ne_nil _ _)

/-- No `else` is met, neither among loose tokens nor after the semicolon. -/
theorem stops_branches {g : α → α → β} {g' : α → β} (hp : Stops p) :
    Stops (p >>= fun first => accept .elseKeyword >>= fun more =>
      if more then p >>= fun second => pure (g first second) else pure (g' first)) := by
  intro finish loose semicolon later h
  have hstops := @hp finish _ _ _ h
  have hend : ∀ first ahead, (frontOf finish ahead).terminal ≠ .elseKeyword →
      (accept .elseKeyword >>= fun more =>
        if more then p >>= fun second => pure (g first second) else pure (g' first)).run finish
          ahead = ⟨.ok (g' first), [], ahead⟩ := by
    intro first ahead hfront
    show ((accept .elseKeyword).run finish ahead).andThen _ = _
    rw [accept_run_of_ne (by decide) hfront]
    rfl
  show StopsBy semicolon later ((p.run finish (loose ++ semicolon :: later)).andThen _)
  generalize p.run finish (loose ++ semicolon :: later) = o at hstops
  cases hstops with
  | failed h => exact .failed h
  | @short a trace left hleft hne =>
      obtain ⟨t, left, rfl⟩ := List.exists_cons_of_ne_nil hne
      have ht := (hleft t (List.mem_cons_self ..)).ne (x := .elseKeyword) (by decide)
      rw [Outcome.andThen, hend a (t :: left ++ semicolon :: later) ht]
      exact .short hleft hne
  | whole =>
      rw [Outcome.andThen, hend _ _ (h.noElse finish)]
      exact .whole

theorem stops_fix {body : (β → Parse α) → β → Parse α}
    (h : ∀ self, (∀ b, Stops (self b)) → ∀ b, Stops (body self b)) (b : β) :
    Stops (fix body b) := by
  intro finish loose semicolon later
  induction hn : (loose ++ semicolon :: later).length using Nat.strongRecOn
    generalizing b finish loose semicolon later with
  | ind n ih =>
      intro hstretch
      rw [fix_run]
      refine h _ ?_ b hstretch
      intro b' finish' loose' semicolon' later' hstretch'
      by_cases hlt : (loose' ++ semicolon' :: later').length <
          (loose ++ semicolon :: later).length
      · rw [below_run hlt]
        exact ih _ (hn ▸ hlt) b' rfl hstretch'
      · rw [below_run_of_le (Nat.not_lt.1 hlt)]
        exact .failed hstretch'.isLoose

end

/-! ## Statements before a semicolon -/

theorem stops_statement : Stops statement := by
  have hadmits : Admits fun ts : List Token => ∀ t ∈ ts, t.terminal ≠ .semicolon :=
    admits_forall fun _ ht => ht.ne rfl
  have hexpect : ∀ {x : Terminal}, x ≠ .unreserved → x ≠ .semicolon → Passes (expect x) :=
    fun hx hne => consumes_expect hadmits.toAdditive hx fun t ht =>
      List.forall_mem_singleton.2 (ht.terminal_eq hx ▸ hne)
  have hexpression : Passes expression := consumes_expression hadmits
  have hcondition : Passes condition := consumes_condition hadmits
  refine stops_fix (fun self hself _ => stops_current_bind fun t hfor hbrace => ?_) ()
  split
  · exact stops_bind (hexpect (by decide) (by decide)) fun _ =>
      stops_bind hcondition fun _ => stops_branches (hself ())
  · exact stops_bind (hexpect (by decide) (by decide)) fun _ =>
      stops_bind hcondition fun _ => stops_then (hself ())
  · next ht => exact absurd ht hfor
  · exact stops_bind (hexpect (by decide) (by decide)) fun _ =>
      stops_bind hcondition fun _ => stops_semicolon
  · exact stops_bind (hexpect (by decide) (by decide)) fun _ =>
      stops_bind hexpression fun _ => stops_semicolon
  · next ht => exact absurd ht hbrace
  · split
    · exact stops_bind (consumes_declaration hadmits) fun _ => stops_semicolon
    · exact stops_bind hexpression fun _ => stops_optionalSemicolon

section

variable {loose later : List Token} {semicolon : Token}

def WithinStretch (semicolon : Token) (later rest : List Token) : Prop :=
  rest = later ∨
    ∃ left, left ≠ [] ∧ LooseTokens left ∧ rest = left ++ semicolon :: later

/-- Tokens are skipped through the semicolon, or up to a loose token before it. -/
theorem withinStretch_drop (h : LooseTokens loose) (hsemicolon : semicolon.terminal = .semicolon)
    (later : List Token) :
    WithinStretch semicolon later
      ((loose ++ semicolon :: later).drop (toStatement (loose ++ semicolon :: later))) := by
  induction loose with
  | nil =>
      left
      have hbrace : semicolon.terminal ≠ .rightBrace := by
        rw [hsemicolon]
        decide
      rw [List.nil_append, toStatement, if_neg hbrace, if_pos hsemicolon]
      rfl
  | cons t loose ih =>
      obtain ⟨ht, hloose⟩ := List.forall_mem_cons.1 h
      rw [List.cons_append, toStatement, if_neg (ht.ne (by decide)), if_neg (ht.ne (by decide))]
      split
      · exact .inr ⟨t :: loose, List.cons_ne_nil _ _, h, rfl⟩
      · exact ih hloose

/-- A round of a block that begins in a stretch ends in it or after it. -/
theorem recovering_withinStretch (h : Stretch loose semicolon later) (hne : loose ≠ [])
    (finish : Location) :
    ∃ found trace rest, (recovering toStatement (some <$> statement)).run finish
        (loose ++ semicolon :: later) = ⟨.ok found, trace, rest⟩ ∧
      trace.tokens ≠ [] ∧ WithinStretch semicolon later rest := by
  have hitem : Advances (some <$> statement) := fun t => advancesAt_map (advances_statement t)
  obtain ⟨found, trace, rest, hround, htokens⟩ :=
    @recovering_advances _ toStatement _ finish _ (hitem _)
      (List.append_ne_nil_of_left_ne_nil hne (semicolon :: later))
  refine ⟨found, trace, rest, hround, htokens, ?_⟩
  have hstops := @stops_map _ _ _ some stops_statement finish _ _ _ h
  have hahead := (some <$> statement).conserves finish (loose ++ semicolon :: later)
  cases ho : (some <$> statement).run finish (loose ++ semicolon :: later) with
  | mk value trace' rest' =>
      rw [ho] at hstops hahead
      cases hstops with
      | short hleft hleftne =>
          rw [recovering_run_ok ho] at hround
          obtain ⟨-, -, rfl⟩ := Outcome.mk.inj hround
          exact .inr ⟨_, hleftne, hleft, rfl⟩
      | whole =>
          rw [recovering_run_ok ho] at hround
          obtain ⟨-, -, rfl⟩ := Outcome.mk.inj hround
          exact .inl rfl
      | @failed e _ left hleft =>
          obtain ⟨lost, more, hresumes, hrun⟩ := recovering_resumes toStatement ho
          obtain ⟨-, -, rfl⟩ := Outcome.mk.inj (hrun.symm.trans hround)
          generalize hrest : left ++ semicolon :: later = rest at hresumes hahead
          cases hresumes with
          | read =>
              subst hrest
              exact withinStretch_drop hleft h.isSemicolon later
          | ended => exact absurd hrest (by simp)
          | @stalled t more hnone =>
              -- the token that is lost is the first one, which is loose
              rw [hnone, List.nil_append] at hahead
              obtain ⟨u, loose, rfl⟩ := List.exists_cons_of_ne_nil hne
              obtain ⟨rfl, rfl⟩ := List.cons.inj hahead
              exact withinStretch_drop (List.forall_mem_cons.1 h.isLoose).2 h.isSemicolon later

/-- What a block finds after a malformed statement, it finds from that statement on. -/
theorem blockItems_stretch (h : Stretch loose semicolon later) (hne : loose ≠ [])
    {finish : Location} {found : List Node} {trace : Trace} {rest : List Token}
    (hlater : (blockItems statement).run finish later = ⟨.ok found, trace, rest⟩) :
    ∃ extra trace', (blockItems statement).run finish (loose ++ semicolon :: later) =
      ⟨.ok (extra ++ found), trace', rest⟩ := by
  -- each round leaves fewer tokens of the malformed statement, or none
  induction hn : loose.length using Nat.strongRecOn generalizing loose with
  | ind n ih =>
      obtain ⟨node, trace', rest', hround, htokens, hwithin⟩ :=
        recovering_withinStretch h hne finish
      have hgo : ((frontOf finish (loose ++ semicolon :: later)).terminal == .rightBrace) =
          false := beq_eq_false_iff_ne.2 (h.front_ne finish (by decide))
      obtain ⟨extra, trace'', hothers⟩ : ∃ extra trace'',
          (blockItems statement).run finish rest' = ⟨.ok (extra ++ found), trace'', rest⟩ := by
        rcases hwithin with rfl | ⟨left, hleftne, hleft, rfl⟩
        · exact ⟨[], trace, hlater⟩
        · have hlt := length_rest_lt hround htokens
          rw [List.length_append, List.length_append] at hlt
          have hstretch : Stretch left semicolon later := by
            refine ⟨hleft, h.isSemicolon, h.noElse, fun t ht => h.wellFormed t ?_⟩
            refine mem_ahead_of_mem_rest (recovering toStatement (some <$> statement)) finish ?_
            rwa [hround]
          exact ih left.length (by omega) hstretch hleftne rfl
      refine ⟨node.toList ++ extra, trace' ++ trace'', ?_⟩
      rw [List.append_assoc]
      exact items_run_ok (List.append_ne_nil_of_left_ne_nil hne _) hgo hround htokens hothers

end

/-! ## Blocks -/

/-- The items of a block, some of them malformed, and the nodes of the good ones.  A good item
is a statement by itself, and a malformed one is anything before a semicolon. -/
inductive BlockText : List Token → List Node → Prop
  | nil : BlockText [] []
  | good (finish : Location) {ts more : List Token} {node : Node} {nodes : List Node}
      (hvalue : (statement.run finish ts).value = .ok node)
      (hrest : (statement.run finish ts).rest = [])
      (hclean : (statement.run finish ts).trace.errors = []) (hend : Closed ts)
      (hmore : BlockText more nodes) : BlockText (ts ++ more) (node :: nodes)
  | malformed {loose more : List Token} {semicolon : Token} {nodes : List Node}
      (hne : loose ≠ []) (hloose : LooseTokens loose)
      (hsemicolon : semicolon.terminal = .semicolon) (hmore : BlockText more nodes) :
      BlockText (loose ++ semicolon :: more) nodes

theorem beginsStatement_of_reads {finish : Location} {ts rest : List Token} {node : Node}
    (hwf : ∀ t ∈ ts, t.WellFormed) (h : statement.Reads finish ts rest node) :
    ∃ t us, ts = t :: us ∧ t.toLexeme.BeginsStatement := by
  obtain ⟨t, us, rfl, ht, -⟩ := (statement_sound hwf h).1.begins
  exact ⟨t, us, rfl, ht⟩

section

variable {ts rest : List Token} {nodes : List Node} {closing : Token}

theorem BlockText.noElse (h : BlockText ts nodes) (hclosing : closing.terminal = .rightBrace)
    (hwf : ∀ t ∈ ts, t.WellFormed) (finish : Location) :
    (frontOf finish (ts ++ closing :: rest)).terminal ≠ .elseKeyword := by
  cases h with
  | nil =>
      rw [List.nil_append, frontOf, List.headD_cons, hclosing]
      decide
  | good fin hvalue hrest hclean =>
      obtain ⟨read, rfl, hreads⟩ := reads_of_outcome hvalue hrest hclean
      rw [List.append_nil] at hwf
      obtain ⟨t, us, rfl, ht⟩ :=
        beginsStatement_of_reads (List.forall_mem_append.1 hwf).1 hreads
      exact ht.terminal_ne (by decide)
  | malformed hne hloose =>
      obtain ⟨t, us, rfl⟩ := List.exists_cons_of_ne_nil hne
      exact (hloose t (List.mem_cons_self ..)).ne (by decide)

/-- The list of a block comes to the closing brace, with the good statements among those that
it found. -/
theorem BlockText.run (h : BlockText ts nodes) (hclosing : closing.terminal = .rightBrace)
    (hwf : ∀ t ∈ ts ++ closing :: rest, t.WellFormed) (finish : Location) :
    ∃ found trace, (blockItems statement).run finish (ts ++ closing :: rest) =
      ⟨.ok found, trace, closing :: rest⟩ ∧ nodes.Sublist found := by
  induction h with
  | nil =>
      have hstop : ((frontOf finish (closing :: rest)).terminal == .rightBrace) = true :=
        beq_iff_eq.2 hclosing
      exact ⟨[], [], items_run_stop (.inr hstop), .slnil⟩
  | @good fin ts more node nodes hvalue hrest hclean hend hmore ih =>
      obtain ⟨read, hread, hreads⟩ := reads_of_outcome hvalue hrest hclean
      rw [List.append_nil] at hread
      subst hread
      rw [List.append_assoc] at hwf ⊢
      obtain ⟨hwfs, hwft⟩ := List.forall_mem_append.1 hwf
      obtain ⟨others, trace, hothers, hsub⟩ := ih hwft
      obtain ⟨t, us, rfl, ht⟩ := beginsStatement_of_reads hwfs hreads
      have hwfm : ∀ t ∈ more, t.WellFormed := (List.forall_mem_append.1 hwft).1
      have hitem : statement.Reads finish (t :: us) (more ++ closing :: rest) node :=
        selfContained_statement _ (Nat.lt_succ_self _) hwfs hend hreads finish _
          (hmore.noElse hclosing hwfm finish)
      have hround : (recovering toStatement (some <$> statement)).Reads finish (t :: us)
          (more ++ closing :: rest) (some node) :=
        reads_recovering.2 (reads_map.2 ⟨node, hitem, rfl⟩)
      have hgo : (t.terminal == .rightBrace) = false :=
        beq_eq_false_iff_ne.2 (ht.terminal_ne (by decide))
      exact ⟨node :: others, _, items_run_ok (List.cons_ne_nil _ _) hgo hround
        (List.cons_ne_nil _ _) hothers, hsub.cons_cons node⟩
  | @malformed loose more semicolon nodes hne hloose hsemicolon hmore ih =>
      rw [List.append_assoc, List.cons_append] at hwf ⊢
      have hwft := (List.forall_mem_cons.1 (List.forall_mem_append.1 hwf).2).2
      obtain ⟨found, trace, hlater, hsub⟩ := ih hwft
      have hwfm : ∀ t ∈ more, t.WellFormed := (List.forall_mem_append.1 hwft).1
      have hstretch : Stretch loose semicolon (more ++ closing :: rest) :=
        ⟨hloose, hsemicolon, hmore.noElse hclosing hwfm, hwf⟩
      obtain ⟨extra, trace', hrun⟩ := blockItems_stretch hstretch hne hlater
      exact ⟨extra ++ found, trace', hrun, hsub.trans (List.sublist_append_right ..)⟩

/-- A block is read to its closing brace and no further, whatever malformed statements are in
it, and holds the good statements, in order and as they are read alone. -/
theorem block_keeps_statements {opening : Token} (h : BlockText ts nodes)
    (hopening : opening.terminal = .leftBrace) (hclosing : closing.terminal = .rightBrace)
    (hwf : ∀ t ∈ ts ++ closing :: rest, t.WellFormed) (finish : Location) :
    ∃ found trace, statement.run finish (opening :: (ts ++ closing :: rest)) =
        ⟨.ok (.block found opening.location), trace, rest⟩ ∧
      trace.tokens = opening :: (ts ++ [closing]) ∧ nodes.Sublist found := by
  obtain ⟨found, trace, hitems, hsub⟩ := h.run hclosing hwf finish
  have hstatement : statement.Yields finish (opening :: (ts ++ [closing]) ++ rest) rest
      (.block found opening.location) := by
    rw [List.cons_append, List.append_assoc, List.singleton_append, Yields,
      statement_run_block hopening]
    exact block_yields hopening hclosing ⟨trace, hitems⟩
  obtain ⟨trace, hrun, htokens⟩ := hstatement.tokens_eq
  rw [List.cons_append, List.append_assoc, List.singleton_append] at hrun
  exact ⟨found, trace, hrun, htokens, hsub⟩

end

/-- A block with a malformed statement, which is read in three rounds, between two good
ones. -/
def shambles : String := "\x7b x = 1; int while (y class; \x7b \x7d \x7d"

theorem block_keeps_statements_of_shambles :
    let tokens := sourceTokens "Shambles" shambles
    let place (column : Nat) : Location := ⟨⟨1, column⟩, "Shambles"⟩
    let kept : List Node := [.binary .assign (.reference "x" none (place 3))
      (.literal (.integer 1) (place 7)) (place 5), .block [] (place 30)]
    BlockText ((tokens.drop 1).take 12) kept ∧
      ∃ found trace, statement.run (place 35) tokens =
          ⟨.ok (.block found (place 1)), trace, []⟩ ∧
        trace.tokens = tokens ∧ kept.Sublist found := by
  intro tokens place kept
  have htext : BlockText ((tokens.drop 1).take 4 ++ ((tokens.drop 5).take 5 ++
      ⟨Terminal.semicolon.lexeme, place 28⟩ :: ((tokens.drop 11).take 2 ++ []))) kept := by
    have hsemicolon : Closed ((tokens.drop 1).take 4) :=
      ⟨(tokens.drop 1).take 3, ⟨Terminal.semicolon.lexeme, place 8⟩, by decide +kernel, .inl rfl⟩
    have hbrace : Closed ((tokens.drop 11).take 2) :=
      ⟨(tokens.drop 11).take 1, ⟨Terminal.rightBrace.lexeme, place 32⟩, by decide +kernel, .inr rfl⟩
    have hlast : BlockText ((tokens.drop 11).take 2 ++ []) [.block [] (place 30)] :=
      .good (place 0) (by decide +kernel) (by decide +kernel) (by decide +kernel) hbrace .nil
    have hmalformed : BlockText ((tokens.drop 5).take 5 ++ ⟨Terminal.semicolon.lexeme, place 28⟩ ::
        ((tokens.drop 11).take 2 ++ [])) [.block [] (place 30)] :=
      .malformed (by decide +kernel) (by decide +kernel) rfl hlast
    exact .good (place 0) (by decide +kernel) (by decide +kernel) (by decide +kernel) hsemicolon
      hmalformed
  have hts : (tokens.drop 1).take 12 = (tokens.drop 1).take 4 ++ ((tokens.drop 5).take 5 ++
      ⟨Terminal.semicolon.lexeme, place 28⟩ :: ((tokens.drop 11).take 2 ++ [])) := by
    decide +kernel
  let opening : Token := ⟨Terminal.leftBrace.lexeme, place 1⟩
  let closing : Token := ⟨Terminal.rightBrace.lexeme, place 34⟩
  have htokens : tokens = opening :: ((tokens.drop 1).take 12 ++ [closing]) := by
    decide +kernel
  have hwf : ∀ t ∈ tokens, t.WellFormed := Lexical.wellFormed_tokens "Shambles" shambles.toList
  have hopening : opening.terminal = .leftBrace := rfl
  have hclosing : closing.terminal = .rightBrace := rfl
  rw [← hts] at htext
  rw [htokens] at hwf
  have hblock := block_keeps_statements htext hopening hclosing (List.forall_mem_cons.1 hwf).2
    (place 35)
  rw [← htokens] at hblock
  exact ⟨htext, hblock⟩

end Grammar

end MiniJava
