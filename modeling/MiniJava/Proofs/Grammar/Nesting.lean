import MiniJava.Proofs.Grammar.Resilience
import MiniJava.Proofs.Grammar.Termination
/-!
# Nesting

A run that begins inside a pair of braces ends before the closing one, with no more than whole
groups of braces left to it: a block reads its own braces both or neither, and everything else
reads none.
-/

namespace MiniJava

/-- At a given depth, the tokens close as many braces as are open, and never more. -/
def Closes : Int → List Token → Prop
  | depth, [] => depth = 0
  | depth, t :: ts => 0 ≤ depth + t.brace ∧ Closes (depth + t.brace) ts

def Flat (ts : List Token) : Prop := ∀ t ∈ ts, t.brace = 0

instance (ts : List Token) : Decidable (Flat ts) := inferInstanceAs (Decidable (∀ t ∈ ts, _))

theorem Token.brace_ge (t : Token) : -1 ≤ t.brace := by
  unfold brace
  split
  · decide
  · split <;> decide

theorem Token.terminal_of_brace_neg {t : Token} (h : t.brace < 0) : t.terminal = .rightBrace := by
  by_contra hne
  have hbrace := Token.brace_nonneg hne
  omega

theorem Flat.split {read rest before later : List Token} {t : Token} (h : Flat read)
    (ht : t.brace ≠ 0) (hsplit : read ++ rest = before ++ t :: later) :
    ∃ left, before = read ++ left ∧ rest = left ++ t :: later := by
  rcases List.append_eq_append_iff.1 hsplit with ⟨left, hbefore, hrest⟩ | ⟨passed, hread, hpassed⟩
  · exact ⟨left, hbefore, hrest⟩
  · cases passed with
    | nil => exact ⟨[], by simp [hread], hpassed.symm⟩
    | cons u passed =>
        rw [List.cons_append, List.cons.injEq] at hpassed
        obtain ⟨rfl, -⟩ := hpassed
        exact absurd (h t (by simp [hread])) ht

namespace Closes

variable {depth : Int} {ts us : List Token} {t : Token}

theorem of_balance (hnonneg : ∀ n ≤ ts.length, 0 ≤ depth + balance (ts.take n))
    (htotal : depth + balance ts = 0) : Closes depth ts := by
  induction ts generalizing depth with
  | nil =>
      rw [balance_nil, Int.add_zero] at htotal
      exact htotal
  | cons t ts ih =>
      rw [balance_cons, ← Int.add_assoc] at htotal
      refine ⟨?_, ih (fun n hn => ?_) htotal⟩
      · have hfirst := hnonneg 1 (by simp)
        rw [List.take_succ_cons, List.take_zero, balance_cons, balance_nil] at hfirst
        omega
      · have hnext := hnonneg (n + 1) (Nat.succ_le_succ hn)
        rwa [List.take_succ_cons, balance_cons, ← Int.add_assoc] at hnext

theorem right (hflat : Flat ts) (h : Closes depth (ts ++ us)) : Closes depth us := by
  induction ts with
  | nil => exact h
  | cons t ts ih =>
      obtain ⟨ht, hts⟩ := List.forall_mem_cons.1 hflat
      have htail := h.2
      rw [ht, Int.add_zero] at htail
      exact ih hts htail

theorem after {read rest inner later : List Token} {closing : Token} (h : Closes depth inner)
    (hclosing : closing.terminal = .rightBrace) (hread : Flat read)
    (hsplit : read ++ rest = inner ++ closing :: later) :
    ∃ left, rest = left ++ closing :: later ∧ Closes depth left := by
  have hbrace : closing.brace ≠ 0 := by
    rw [Token.brace_of_rightBrace hclosing]
    decide
  obtain ⟨left, rfl, hrest⟩ := hread.split hbrace hsplit
  exact ⟨left, hrest, h.right hread⟩

/-- First the braces that were opened last are closed. -/
theorem append {e : Int} (he : 0 ≤ e) (hts : Closes depth ts) (hus : Closes e us) :
    Closes (depth + e) (ts ++ us) := by
  induction ts generalizing depth with
  | nil =>
      obtain rfl : depth = 0 := hts
      rwa [Int.zero_add]
  | cons t ts ih =>
      obtain ⟨hfirst, htail⟩ := hts
      have hnext := ih htail
      rw [Int.add_right_comm] at hnext
      exact ⟨by omega, hnext⟩

theorem of_flat (h : Flat ts) : Closes 0 ts := by
  induction ts with
  | nil => rfl
  | cons t ts ih =>
      obtain ⟨ht, hts⟩ := List.forall_mem_cons.1 h
      refine ⟨by omega, ?_⟩
      rw [ht]
      exact ih hts

/-- Nothing is closed that is not open. -/
theorem terminal_ne (h : Closes 0 (t :: ts)) : t.terminal ≠ .rightBrace := by
  intro ht
  have hfirst := h.1
  rw [Token.brace_of_rightBrace ht] at hfirst
  omega

theorem group {e : Int} (hdepth : 0 ≤ depth) (he : 0 ≤ e) (h : Closes (depth + 1 + e) ts) :
    ∃ inner closing more, ts = inner ++ closing :: more ∧ closing.terminal = .rightBrace ∧
      Closes e inner ∧ Closes depth more := by
  induction ts generalizing e with
  | nil =>
      have hzero : depth + 1 + e = 0 := h
      omega
  | cons t ts ih =>
      obtain ⟨-, htail⟩ := h
      have hlow := t.brace_ge
      by_cases hclosed : e + t.brace < 0
      · obtain rfl : e = 0 := by omega
        have hbrace : t.brace = -1 := by omega
        have hdone : depth + 1 + 0 + t.brace = depth := by omega
        rw [hdone] at htail
        exact ⟨[], t, ts, rfl, Token.terminal_of_brace_neg (by omega), rfl, htail⟩
      · rw [Int.add_assoc] at htail
        obtain ⟨inner, closing, more, rfl, hclosing, hinner, hmore⟩ := ih (by omega) htail
        exact ⟨t :: inner, closing, more, rfl, hclosing, ⟨by omega, hinner⟩, hmore⟩

end Closes

theorem Balanced.closes {ts : List Token} (h : Balanced ts) : Closes 0 ts := by
  refine .of_balance (fun n hn => ?_) ?_
  · rw [Int.zero_add]
    exact h.1 n hn
  · rw [Int.zero_add]
    exact h.2

namespace Grammar

open Parse

variable {α β : Type}

theorem tolerant_flat : Tolerant Flat where
  nil := List.forall_mem_nil _
  append hs ht := List.forall_mem_append.2 ⟨hs, ht⟩
  plain ht := List.forall_mem_singleton.2 ht.brace_eq

structure Enclosed (inner : List Token) (closing : Token) (later : List Token) : Prop where
  closes : Closes 0 inner
  isClosing : closing.terminal = .rightBrace
  wellFormed : ∀ t ∈ inner ++ closing :: later, t.WellFormed

/-- Every run over fewer than `n` tokens inside a pair of braces leaves some of these, with
whole groups of braces. -/
def NestsWithin (n : Nat) (p : Parse α) : Prop :=
  ∀ ⦃finish inner closing later⦄, inner.length < n → Enclosed inner closing later →
    ∃ left, (p.run finish (inner ++ closing :: later)).rest = left ++ closing :: later ∧
      Closes 0 left

/-! ## Rules -/

section

variable {inner later left : List Token} {closing : Token} {finish : Location}

theorem Enclosed.afterRun (h : Enclosed inner closing later) {p : Parse α}
    (hrest : (p.run finish (inner ++ closing :: later)).rest = left ++ closing :: later)
    (hleft : Closes 0 left) : Enclosed left closing later ∧ left.length ≤ inner.length := by
  refine ⟨⟨hleft, h.isClosing, fun t ht => ?_⟩, ?_⟩
  · exact h.wellFormed t (mem_ahead_of_mem_rest p finish (hrest ▸ ht))
  · have hsplit := congrArg List.length (p.conserves finish (inner ++ closing :: later))
    rw [hrest, List.length_append, List.length_append, List.length_append] at hsplit
    omega

theorem Enclosed.group {opening : Token} (h : Enclosed (opening :: inner) closing later)
    (hopening : opening.terminal = .leftBrace) :
    ∃ group close more, inner = group ++ close :: more ∧ Closes 0 more ∧
      Enclosed group close (more ++ closing :: later) := by
  have hinner := h.closes.2
  rw [Token.brace_of_leftBrace hopening] at hinner
  obtain ⟨group, close, more, rfl, hclose, hgroup, hmore⟩ :=
    hinner.group (e := 0) (Int.le_refl 0) (Int.le_refl 0)
  refine ⟨group, close, more, rfl, hmore, hgroup, hclose, fun t ht => h.wellFormed t ?_⟩
  rw [List.cons_append, List.append_assoc, List.cons_append]
  exact List.mem_cons_of_mem _ ht

end

section

variable {n : Nat} {p : Parse α} {f : α → Parse β}

theorem nests_flat (hp : Consumes p Flat) : NestsWithin n p := by
  intro finish inner closing later _ h
  exact h.closes.after h.isClosing (hp _ h.wellFormed rfl) (p.conserves finish _)

theorem nests_bind (hp : NestsWithin n p) (hf : ∀ a, NestsWithin n (f a)) :
    NestsWithin n (p >>= f) := by
  intro finish inner closing later hlt h
  obtain ⟨left, hrest, hleft⟩ := @hp finish _ _ _ hlt h
  obtain ⟨hnext, hle⟩ := h.afterRun hrest hleft
  rcases run_bind_cases p f finish (inner ++ closing :: later) with
    ⟨e, trace, rest, hrun, hbind⟩ | ⟨a, trace, rest, hrun, hbind⟩
  · rw [hrun] at hrest
    rw [hbind]
    exact ⟨left, hrest, hleft⟩
  · rw [hrun] at hrest
    rw [hbind, show rest = left ++ closing :: later from hrest]
    exact hf a (by omega) hnext

theorem nests_current_bind {f : Token → Parse β} (hf : ∀ t, NestsWithin n (f t)) :
    NestsWithin n (current >>= f) :=
  fun _ _ _ _ hlt h => hf _ hlt h

theorem nests_after {x : Terminal} {f : Token → Parse β} (hx : x ≠ .unreserved ∧ x ≠ .leftBrace ∧
    x ≠ .rightBrace ∧ x ≠ .classKeyword) (hf : ∀ t, NestsWithin n (f t)) :
    NestsWithin (n + 1) (expect x >>= f) := by
  intro finish inner closing later hlt h
  by_cases hfront : (frontOf finish (inner ++ closing :: later)).terminal = x
  · cases inner with
    | nil => exact absurd (hfront.symm.trans h.isClosing) hx.2.2.1
    | cons t inner =>
        have hterminal : t.terminal = x := hfront
        have ht : t.Plain := by
          rw [Token.Plain, hterminal]
          exact hx.2
        have hflat : Flat [t] := List.forall_mem_singleton.2 ht.brace_eq
        have hinner : Closes 0 inner := h.closes.right hflat
        have hnext : Enclosed inner closing later :=
          ⟨hinner, h.isClosing, (List.forall_mem_cons.1 h.wellFormed).2⟩
        rw [List.cons_append, expect_bind_run hx.1 hterminal]
        exact hf t (Nat.lt_of_succ_lt_succ hlt) hnext
  · rw [expect_bind_run_of_ne hfront]
    exact ⟨inner, rfl, h.closes⟩

end

/-! ## Lists -/

section

variable {n : Nat} {inner later : List Token} {closing : Token} {finish : Location}

theorem drop_toStatement_nests (h : Closes 0 inner) (hclosing : closing.terminal = .rightBrace)
    (later : List Token) :
    ∃ left, (inner ++ closing :: later).drop (toStatement (inner ++ closing :: later)) =
      left ++ closing :: later ∧ Closes 0 left :=
  h.after hclosing (tolerant_flat.unbraced (unbraced_take_toStatement _))
    (List.take_append_drop _ _)

theorem recovering_nests {item : Parse (Option α)} (hitem : NestsWithin n item)
    (hlt : inner.length < n) (h : Enclosed inner closing later)
    (hright : (frontOf finish (inner ++ closing :: later)).terminal ≠ .rightBrace)
    (hleft : (frontOf finish (inner ++ closing :: later)).terminal = .leftBrace →
      (item.run finish (inner ++ closing :: later)).trace.tokens ≠ []) :
    ∃ left, ((recovering toStatement item).run finish (inner ++ closing :: later)).rest =
      left ++ closing :: later ∧ Closes 0 left := by
  obtain ⟨left, hrest, hcloses⟩ := @hitem finish _ _ _ hlt h
  have hahead := item.conserves finish (inner ++ closing :: later)
  cases ho : item.run finish (inner ++ closing :: later) with
  | mk value trace rest =>
      rw [ho] at hrest hahead hleft
      cases value with
      | ok found =>
          rw [recovering_run_ok ho]
          exact ⟨left, hrest, hcloses⟩
      | error e =>
          obtain ⟨lost, more, hresumes, hrun⟩ := recovering_resumes toStatement ho
          rw [hrun]
          cases hresumes with
          | read =>
              obtain rfl : rest = left ++ closing :: later := hrest
              exact drop_toStatement_nests hcloses h.isClosing later
          | ended => exact absurd hrest.symm (List.append_ne_nil_of_right_ne_nil _ (by simp))
          | @stalled t more hnone =>
              -- the token that is lost is the first one, which must not be a brace
              rw [hnone] at hleft
              rw [hnone, List.nil_append] at hahead
              cases inner with
              | nil => exact absurd h.isClosing hright
              | cons u inner =>
                  obtain ⟨rfl, rfl⟩ := List.cons.inj hahead
                  have hopen : t.terminal ≠ .leftBrace := fun ht => hleft ht rfl
                  have hclose : t.terminal ≠ .rightBrace := hright
                  have hflat : Flat [t] :=
                    List.forall_mem_singleton.2 (Token.brace_of_ne hopen hclose)
                  exact drop_toStatement_nests (h.closes.right hflat) h.isClosing later

theorem statement_run_block {opening : Token} (h : opening.terminal = .leftBrace)
    (ahead : List Token) :
    statement.run finish (opening :: ahead) = (block statement).run finish (opening :: ahead) := by
  have hrun : ∀ p : Token → Parse Node, (current >>= p).run finish (opening :: ahead) =
      (p opening).run finish (opening :: ahead) := fun _ => rfl
  conv => lhs; rw [statement_eq]
  rw [statementOf, hrun, h]

theorem statement_reads_opening {ahead : List Token}
    (h : (frontOf finish ahead).terminal = .leftBrace) :
    (statement.run finish ahead).trace.tokens ≠ [] := by
  cases ahead with
  | nil => exact absurd h (show Terminal.unreserved ≠ .leftBrace by decide)
  | cons t ahead =>
      have ht : t.terminal = .leftBrace := h
      rw [statement_run_block ht, block, expect_bind_run (by decide) ht]
      exact List.cons_ne_nil _ _

/-- A block whose list comes to a closing brace is read through that brace. -/
theorem block_yields {opening : Token} {ahead rest : List Token} {found : List Node}
    (hopening : opening.terminal = .leftBrace) (hclosing : closing.terminal = .rightBrace)
    (hitems : (blockItems statement).Yields finish ahead (closing :: rest) found) :
    (block statement).Yields finish (opening :: ahead) rest (.block found opening.location) := by
  refine yields_expect_bind (by decide) hopening (yields_bind hitems ?_)
  exact yields_expect_bind (by decide) hclosing yields_pure

theorem nests_items {stops : Token → Bool}
    (hstops : ∀ t, stops t = false → t.terminal ≠ .rightBrace) (h : NestsWithin n statement) :
    NestsWithin n (items stops toStatement (some <$> statement)) := by
  intro finish inner closing later
  induction hn : inner.length using Nat.strongRecOn generalizing inner with
  | ind m ih =>
      intro hlt henclosed
      by_cases hstop : stops (frontOf finish (inner ++ closing :: later)) = true
      · rw [items_run_stop (.inr hstop)]
        exact ⟨inner, rfl, henclosed.closes⟩
      · rw [Bool.not_eq_true] at hstop
        have hne : inner ++ closing :: later ≠ [] := by simp
        obtain ⟨found, trace, rest, hround, htokens⟩ :=
          @recovering_advances _ toStatement _ finish _
            (advancesAt_map (g := some) (advances_statement _)) hne
        obtain ⟨left, hrest, hcloses⟩ := @recovering_nests _ _ _ _ _ finish (some <$> statement) h
          (hn ▸ hlt) henclosed (hstops _ hstop) statement_reads_opening
        obtain ⟨hleft, -⟩ := henclosed.afterRun hrest hcloses
        rw [hround] at hrest
        subst hrest
        have hshorter := length_rest_lt hround htokens
        rw [List.length_append, List.length_append] at hshorter
        rw [items_run_go hne hstop hround htokens]
        exact ih left.length (by omega) rfl (by omega) hleft

end

/-! ## Statements -/

section

variable {n : Nat}

/-- The list of a block comes to the brace that closes it. -/
theorem nests_block (h : NestsWithin n statement) : NestsWithin (n + 1) (block statement) := by
  intro finish inner closing later hlt henclosed
  by_cases hfront : (frontOf finish (inner ++ closing :: later)).terminal = .leftBrace
  · cases inner with
    | nil => exact absurd (hfront.symm.trans henclosed.isClosing) (by decide)
    | cons opening inner =>
        have hopening : opening.terminal = .leftBrace := hfront
        obtain ⟨group, close, more, rfl, hmore, hgroup⟩ := henclosed.group hopening
        have hshorter : group.length < n := by
          rw [List.length_cons, List.length_append] at hlt
          omega
        obtain ⟨left, hrest, hleft⟩ := @nests_items n (·.terminal == .rightBrace)
          (fun t ht => beq_eq_false_iff_ne.1 ht) h finish _ _ _ hshorter hgroup
        obtain ⟨found, trace, rest, hitems, hend⟩ := @items_ok _ (·.terminal == .rightBrace)
          toStatement (some <$> statement) (fun t _ => advancesAt_map (advances_statement t))
          finish (group ++ close :: (more ++ closing :: later))
        rw [hitems] at hrest
        obtain rfl : rest = left ++ close :: (more ++ closing :: later) := hrest
        -- the list stopped at a closing brace, and what is left of the group begins with none
        obtain rfl : left = [] := by
          cases left with
          | nil => rfl
          | cons t left =>
              have hright : (t.terminal == .rightBrace) = true :=
                hend.resolve_left (List.cons_ne_nil _ _)
              exact absurd (beq_iff_eq.1 hright) hleft.terminal_ne
        obtain ⟨trace', hrun⟩ := block_yields hopening hgroup.isClosing ⟨trace, hitems⟩
        rw [List.cons_append, List.append_assoc, List.cons_append, hrun]
        exact ⟨more, rfl, hmore⟩
  · rw [block, expect_bind_run_of_ne hfront]
    exact ⟨inner, rfl, henclosed.closes⟩

theorem nests_statementOf (h : NestsWithin n statement) :
    NestsWithin (n + 1) (statementOf statement) := by
  have hcondition : ∀ {f : Node → Parse Node}, (∀ a, NestsWithin n (f a)) →
      NestsWithin n (condition >>= f) :=
    nests_bind (nests_flat (consumes_condition tolerant_flat.admits))
  have hthen : ∀ {f : Token → Parse Node} {x : Terminal}, x ≠ .unreserved ∧ x ≠ .leftBrace ∧
      x ≠ .rightBrace ∧ x ≠ .classKeyword → (∀ t, NestsWithin n (f t)) →
      NestsWithin n (expect x >>= f) :=
    fun hx => nests_bind (nests_flat (tolerant_flat.expect hx))
  have hclause : ∀ {f : Option Node → Parse Node} {x : Terminal}, (∀ a, NestsWithin n (f a)) →
      NestsWithin n (clause x >>= f) :=
    nests_bind (nests_flat (consumes_clause tolerant_flat.admits _))
  have hpure : ∀ {α : Type} (a : α), NestsWithin n (pure a : Parse α) :=
    fun a => nests_flat (tolerant_flat.pure a)
  have hbody : ∀ g : Node → Node, NestsWithin n (statement >>= fun a => pure (g a)) :=
    fun g => nests_bind h fun _ => hpure _
  refine nests_current_bind fun t => ?_
  split
  · refine nests_after (by decide) fun _ => hcondition fun _ => nests_bind h fun _ => ?_
    refine nests_bind (nests_flat (tolerant_flat.accept (by decide))) fun _ => ?_
    split
    · exact hbody _
    · exact hpure _
  · exact nests_after (by decide) fun _ => hcondition fun _ => hbody _
  · refine nests_after (by decide) fun _ => hthen (by decide) fun _ => hclause fun _ => ?_
    refine hthen (by decide) fun _ => hclause fun _ => hthen (by decide) fun _ => ?_
    exact hclause fun _ => hthen (by decide) fun _ => hbody _
  · refine nests_after (by decide) fun _ => hcondition fun _ => ?_
    exact hthen (by decide) fun _ => hpure _
  · exact nests_flat (consumes_returnStatement tolerant_flat)
  · exact nests_block h
  · split
    · refine nests_flat (tolerant_flat.seq (consumes_declaration tolerant_flat.admits) fun _ => ?_)
      exact tolerant_flat.seq (tolerant_flat.expect (by decide)) fun _ => tolerant_flat.pure _
    · refine nests_flat (tolerant_flat.seq (consumes_expression tolerant_flat.admits) fun _ => ?_)
      exact tolerant_flat.seq (tolerant_flat.accept (by decide)) fun _ => tolerant_flat.pure _

theorem nests_statement (n : Nat) : NestsWithin n statement := by
  induction n with
  | zero => exact fun _ _ _ _ hlt => absurd hlt (Nat.not_lt_zero _)
  | succ n ih =>
      rw [statement_eq]
      exact nests_statementOf ih

end

end Grammar

end MiniJava
