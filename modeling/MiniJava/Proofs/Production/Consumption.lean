import MiniJava.Proofs.Production.CleanRun
import MiniJava.Proofs.Token.WellFormed
/-!
# What productions read

What can be said of the tokens that a production reads, whether it yields a value or fails,
and which productions cannot yield one without reading a token.  There is one rule for each
way of building productions.  A list reads a token in each round, so it never fails.
-/

namespace MiniJava.Grammar

open Parse

variable {α β : Type}

/-! ## Tokens read by any run -/

/-- With a given token at the front, the tokens read from well-formed ones have a
property. -/
def ConsumesAt (front : Token) (p : Parse α) (read : List Token → Prop) : Prop :=
  ∀ ⦃finish ahead⦄, (∀ t ∈ ahead, t.WellFormed) → frontOf finish ahead = front →
    read (p.run finish ahead).trace.tokens

def Consumes (p : Parse α) (read : List Token → Prop) : Prop :=
  ∀ front, ConsumesAt front p read

/-- A property of token lists that holds of a list if it holds of its parts. -/
structure Additive (read : List Token → Prop) : Prop where
  nil : read []
  append : ∀ {s t}, read s → read t → read (s ++ t)

section

variable {read : List Token → Prop} {front : Token} {p : Parse α} {f : α → Parse β}

theorem mem_ahead_of_mem_rest (p : Parse α) (finish : Location) {ahead : List Token} {t : Token}
    (h : t ∈ (p.run finish ahead).rest) : t ∈ ahead := by
  rw [← p.conserves finish ahead]
  exact List.mem_append_right _ h

theorem consumesAt_bind {first next : List Token → Prop} (hp : ConsumesAt front p first)
    (hf : ∀ a, Consumes (f a) next) (hstop : ∀ {s}, first s → read s)
    (hgo : ∀ {s t}, first s → next t → read (s ++ t)) : ConsumesAt front (p >>= f) read := by
  intro finish ahead hwf hfront
  have hfirst := hp hwf hfront
  have hrest : ∀ t ∈ (p.run finish ahead).rest, t.WellFormed :=
    fun t ht => hwf t (mem_ahead_of_mem_rest p finish ht)
  rcases run_bind_cases p f finish ahead with
    ⟨e, trace, rest, hrun, hbind⟩ | ⟨a, trace, rest, hrun, hbind⟩
  · rw [hrun] at hfirst
    rw [hbind]
    exact hstop hfirst
  · rw [hrun] at hfirst hrest
    rw [hbind, Trace.tokens_append]
    exact hgo hfirst (hf a _ hrest rfl)

theorem ConsumesAt.mono {weaker : List Token → Prop} (h : ConsumesAt front p read)
    (hweaker : ∀ {ts}, read ts → weaker ts) : ConsumesAt front p weaker :=
  fun _ _ hwf hfront => hweaker (h hwf hfront)

theorem consumesAt_map {g : α → β} (hp : ConsumesAt front p read) :
    ConsumesAt front (g <$> p) read := hp

theorem consumes_current_bind {f : Token → Parse β} (h : ∀ t, ConsumesAt t (f t) read) :
    Consumes (current >>= f) read := by
  intro front finish ahead hwf hfront
  exact h _ hwf rfl

theorem consumesAt_atEnd_bind {f : Bool → Parse β} (h : ∀ done, ConsumesAt front (f done) read) :
    ConsumesAt front (atEnd >>= f) read :=
  fun _ _ hwf hfront => h _ hwf hfront

theorem consumesAt_check_bind {x : Terminal} {f : Bool → Parse β}
    (htrue : front.terminal = x → ConsumesAt front (f true) read)
    (hfalse : front.terminal ≠ x → ConsumesAt front (f false) read) :
    ConsumesAt front (check x >>= f) read := by
  rintro finish ahead hwf rfl
  show read ((f ((frontOf finish ahead).terminal == x)).run finish ahead).trace.tokens
  by_cases hx : (frontOf finish ahead).terminal = x
  · rw [hx, beq_self_eq_true]
    exact htrue hx hwf rfl
  · rw [beq_eq_false_iff_ne.2 hx]
    exact hfalse hx hwf rfl

theorem consumes_expect_bind {x : Terminal} {f : Token → Parse β} {next : List Token → Prop}
    (hx : x ≠ .unreserved) (hnil : read []) (hf : ∀ t, Consumes (f t) next)
    (h : ∀ {t ts}, t.Spells x → next ts → read (t :: ts)) : Consumes (expect x >>= f) read := by
  intro front finish ahead hwf _
  by_cases hfront : (frontOf finish ahead).terminal = x
  · cases ahead with
    | nil => exact absurd hfront.symm hx
    | cons t rest =>
        obtain ⟨ht, hrest⟩ := List.forall_mem_cons.1 hwf
        have hterminal : t.terminal = x := hfront
        rw [expect_bind_run hx hterminal]
        exact h (ht.spells hx hterminal) (hf t _ hrest rfl)
  · rw [expect_bind_run_of_ne hfront]
    exact hnil

theorem consumesAt_accept_bind {x : Terminal} {f : Bool → Parse β} {next : List Token → Prop}
    (hx : x ≠ .unreserved) (htrue : Consumes (f true) next)
    (h : ∀ {t ts}, t.Spells x → next ts → read (t :: ts))
    (hfalse : ConsumesAt front (f false) read) : ConsumesAt front (accept x >>= f) read := by
  intro finish ahead hwf hfront
  have hrun : (accept x >>= f).run finish ahead =
      ((accept x).run finish ahead).andThen fun answer rest => (f answer).run finish rest := rfl
  rw [hrun]
  cases ahead with
  | nil =>
      rw [accept_run_nil hx]
      exact hfalse hwf hfront
  | cons t rest =>
      obtain ⟨ht, hrest⟩ := List.forall_mem_cons.1 hwf
      rw [accept_run_cons]
      split
      · next hterminal => exact h (ht.spells hx hterminal) (htrue _ hrest rfl)
      · exact hfalse hwf hfront

section

variable (hread : Additive read)

include hread

theorem consumesAt_pure (a : α) : ConsumesAt front (pure a) read := fun _ _ _ _ => hread.nil

theorem consumesAt_fail (e : SyntaxError) : ConsumesAt front (fail e : Parse α) read :=
  fun _ _ _ _ => hread.nil

theorem consumesAt_refuse (what : Expectation) : ConsumesAt front (refuse what : Parse α) read :=
  fun _ _ _ _ => hread.nil

theorem consumes_report (e : SyntaxError) : Consumes (report e) read :=
  fun _ _ _ _ _ => hread.nil

theorem consumes_unexpected (what : Expectation) : Consumes (unexpected what) read :=
  fun _ _ _ _ _ => hread.nil

theorem consumesAt_seq (hp : ConsumesAt front p read) (hf : ∀ a, Consumes (f a) read) :
    ConsumesAt front (p >>= f) read :=
  consumesAt_bind hp hf id hread.append

theorem consumes_seq (hp : Consumes p read) (hf : ∀ a, Consumes (f a) read) :
    Consumes (p >>= f) read :=
  fun front => consumesAt_seq hread (hp front) hf

theorem consumesAt_advance (h : front.WellFormed → read [front]) :
    ConsumesAt front advance read := by
  intro finish ahead hwf hfront
  cases ahead with
  | nil => exact hread.nil
  | cons t rest =>
      obtain rfl : t = front := hfront
      exact h (hwf t (List.mem_cons_self ..))

theorem consumes_expect {x : Terminal} (hx : x ≠ .unreserved)
    (h : ∀ t : Token, t.Spells x → read [t]) : Consumes (expect x) read := by
  intro front
  refine consumesAt_check_bind (fun hfront => ?_) (fun _ => consumesAt_refuse hread _)
  exact consumesAt_advance hread fun hwf => h front (hwf.spells hx hfront)

theorem consumes_accept {x : Terminal} (hx : x ≠ .unreserved)
    (h : ∀ t : Token, t.Spells x → read [t]) : Consumes (accept x) read := by
  intro front
  refine consumesAt_check_bind (fun hfront => ?_) (fun _ => consumesAt_pure hread _)
  refine consumesAt_seq hread (consumesAt_advance hread fun hwf => ?_)
    fun _ _ => consumesAt_pure hread _
  exact h front (hwf.spells hx hfront)

theorem consumes_name (h : ∀ t : Token, t.Names t.text → read [t]) :
    Consumes (expectKind .identifier) read := by
  refine consumes_current_bind fun t => ?_
  split
  · next ht => exact consumesAt_advance hread fun hwf => h t (hwf.names ht)
  · exact consumesAt_refuse hread _

theorem consumes_identifier (h : ∀ t : Token, t.Names t.text → read [t]) :
    Consumes identifier read :=
  fun _ => consumesAt_map (consumes_name hread h _)

/-- What a body preserves holds of the production that it defines. -/
theorem consumes_fix {body : (β → Parse α) → β → Parse α}
    (h : ∀ self, (∀ b, Consumes (self b) read) → ∀ b, Consumes (body self b) read) (b : β) :
    Consumes (fix body b) read := by
  intro front finish ahead
  induction hn : ahead.length using Nat.strongRecOn generalizing b front finish ahead with
  | ind n ih =>
      intro hwf hfront
      rw [fix_run]
      refine h _ ?_ b front hwf hfront
      intro b' front' finish' ahead' hwf' hfront'
      by_cases hlt : ahead'.length < ahead.length
      · rw [below_run hlt]
        exact ih _ (hn ▸ hlt) b' front' rfl hwf' hfront'
      · rw [below_run_of_le (Nat.not_lt.1 hlt)]
        exact hread.nil

theorem consumes_commaSeparated {item : Parse α} (h : ∀ t : Token, t.Spells .comma → read [t])
    (hitem : Consumes item read) : Consumes (commaSeparated item) read := by
  refine consumes_fix hread (fun self hself _ => ?_) ()
  refine consumes_seq hread hitem fun first => ?_
  refine consumes_seq hread (consumes_accept hread (by decide) h) fun more => ?_
  split
  · exact hself ()
  · exact fun _ => consumesAt_pure hread _

end

end

/-! ## Lists -/

theorem resume_run (count : List Token → Nat) (stalled : Bool) (finish : Location)
    (rest : List Token) :
    (resume count stalled).run finish rest =
      ⟨.ok (), .ofTokens (rest.take (stalled.toNat + count (rest.drop stalled.toNat))),
        rest.drop (stalled.toNat + count (rest.drop stalled.toNat))⟩ := by
  have hskip : ∀ ahead, (skip count).run finish ahead =
      ⟨.ok (), .ofTokens (ahead.take (count ahead)), ahead.drop (count ahead)⟩ := fun _ => rfl
  cases stalled with
  | false =>
      rw [Bool.toNat_false, List.drop_zero, Nat.zero_add]
      exact hskip rest
  | true =>
      have hrun : (resume count true).run finish rest =
          (advance.run finish rest).andThen fun _ rest => (skip count).run finish rest := rfl
      rw [hrun, Bool.toNat_true]
      cases rest with
      | nil =>
          simp [advance, Outcome.andThen, hskip, Trace.ofTokens]
      | cons t rest =>
          rw [List.drop_one, List.tail_cons, Nat.add_comm, List.take_succ_cons,
            List.drop_succ_cons]
          rfl

section

variable {count : List Token → Nat} {item : Parse (Option α)} {finish : Location}
  {ahead rest : List Token} {trace : Trace}

private theorem recovering_run {value : Except SyntaxError (Option α)}
    (h : item.run finish ahead = ⟨value, trace, rest⟩) :
    (recovering count item).run finish ahead =
      (⟨.ok (value, trace.tokens.isEmpty), trace, rest⟩ : Outcome _).andThen fun a rest =>
        Parse.run (match a.1 with
          | .ok found => pure found
          | .error e => report e >>= fun _ => resume count a.2 >>= fun _ => pure none)
          finish rest := by
  have hattempt : item.attempt.run finish ahead =
      ⟨.ok (value, trace.tokens.isEmpty), trace, rest⟩ := by
    show (⟨.ok ((item.run finish ahead).value, (item.run finish ahead).trace.tokens.isEmpty),
      (item.run finish ahead).trace, (item.run finish ahead).rest⟩ : Outcome _) = _
    rw [h]
  rw [← hattempt]
  rfl

theorem recovering_run_ok {found : Option α}
    (h : item.run finish ahead = ⟨.ok found, trace, rest⟩) :
    (recovering count item).run finish ahead = ⟨.ok found, trace, rest⟩ := by
  rw [recovering_run h]
  show (⟨.ok found, trace ++ [], rest⟩ : Outcome (Option α)) = _
  rw [List.append_nil]

/-- A failure is reported, and then tokens are skipped, one of them in any case if the item
read none. -/
theorem recovering_run_error {e : SyntaxError}
    (h : item.run finish ahead = ⟨.error e, trace, rest⟩) :
    (recovering count item).run finish ahead =
      let stalled := trace.tokens.isEmpty.toNat
      let skipped := stalled + count (rest.drop stalled)
      ⟨.ok none, trace ++ .report e :: Trace.ofTokens (rest.take skipped),
        rest.drop skipped⟩ := by
  have hreport : ∀ stalled, (report e >>= fun _ => resume count stalled >>= fun _ =>
      (pure none : Parse (Option α))).run finish rest =
      (⟨.ok (), [.report e], rest⟩ : Outcome Unit).andThen fun _ rest =>
        ((resume count stalled).run finish rest).andThen fun _ rest => ⟨.ok none, [], rest⟩ :=
    fun _ => rfl
  rw [recovering_run h]
  simp only [Outcome.andThen, hreport, resume_run, List.append_nil, List.singleton_append]

/-- From where a list resumes after an item that failed: from where the item stopped, but for the
token in front, which is lost if the item read none. -/
inductive Resumes (trace : Trace) : List Token → List Token → List Token → Prop
  | read {rest : List Token} (h : trace.tokens ≠ []) : Resumes trace rest [] rest
  | ended (h : trace.tokens = []) : Resumes trace [] [] []
  | stalled {t : Token} {more : List Token} (h : trace.tokens = []) :
      Resumes trace (t :: more) [t] more

theorem Resumes.split {lost more : List Token} (h : Resumes trace rest lost more) :
    rest = lost ++ more := by
  cases h <;> rfl

/-- After a failure a token may be lost, and then as many are skipped as `count` says. -/
theorem recovering_resumes (count : List Token → Nat) {e : SyntaxError}
    (h : item.run finish ahead = ⟨.error e, trace, rest⟩) :
    ∃ lost more, Resumes trace rest lost more ∧
      (recovering count item).run finish ahead =
        ⟨.ok none, trace ++ .report e :: Trace.ofTokens (lost ++ more.take (count more)),
          more.drop (count more)⟩ := by
  rw [recovering_run_error h]
  cases htokens : trace.tokens with
  | cons t ts =>
      have hread : trace.tokens ≠ [] := htokens ▸ List.cons_ne_nil t ts
      refine ⟨[], rest, .read hread, ?_⟩
      simp only [List.isEmpty_cons, Bool.toNat_false, List.drop_zero, Nat.zero_add,
        List.nil_append]
  | nil =>
      cases rest with
      | nil => exact ⟨[], [], .ended htokens, by simp only [List.drop_nil, List.take_nil]; rfl⟩
      | cons t more =>
          refine ⟨[t], more, .stalled htokens, ?_⟩
          simp only [List.isEmpty_nil, Bool.toNat_true, Nat.add_comm 1, List.take_succ_cons,
            List.drop_succ_cons, List.drop_zero, List.singleton_append]

theorem recovering_skips {skipped later : List Token} {e : SyntaxError}
    (h : item.run finish ahead = ⟨.error e, trace, skipped ++ later⟩)
    (hread : trace.tokens ≠ []) (hcount : count (skipped ++ later) = skipped.length) :
    ∃ trace', (recovering count item).run finish ahead = ⟨.ok none, trace', later⟩ ∧
      trace'.tokens ≠ [] := by
  have hstalled : trace.tokens.isEmpty.toNat = 0 := by
    rw [List.isEmpty_eq_false_iff.2 hread]
    rfl
  refine ⟨trace ++ .report e :: Trace.ofTokens skipped, ?_, ?_⟩
  · rw [recovering_run_error h]
    simp only [hstalled, List.drop_zero, hcount, Nat.zero_add, List.take_left, List.drop_left]
  · rw [Trace.tokens_append]
    exact List.append_ne_nil_of_left_ne_nil hread _

end

section

variable {read : List Token → Prop} {front : Token} {stops : Token → Bool}
  {count : List Token → Nat} {item : Parse (Option α)}

/-- The tokens of an item and those skipped after it, one of which is the front if the item
read none. -/
theorem consumesAt_recovering {first skipped : List Token → Prop}
    (hitem : ConsumesAt front item first)
    (hcount : ∀ {ts : List Token}, (∀ t ∈ ts, t.WellFormed) → skipped (ts.take (count ts)))
    (hnil : read []) (hok : ∀ {s}, first s → read s)
    (hstalled : ∀ {r}, front.WellFormed → skipped r → read (front :: r))
    (hskip : ∀ {s r}, first s → s ≠ [] → skipped r → read (s ++ r)) :
    ConsumesAt front (recovering count item) read := by
  intro finish ahead hwf hfront
  have hfirst := hitem hwf hfront
  cases ho : item.run finish ahead with
  | mk value trace rest =>
      have hahead := item.conserves finish ahead
      rw [ho] at hfirst hahead
      subst hahead
      obtain ⟨-, hrest⟩ := List.forall_mem_append.1 hwf
      cases value with
      | ok found =>
          rw [recovering_run_ok ho]
          exact hok hfirst
      | error e =>
          obtain ⟨lost, more, hresumes, hrun⟩ := recovering_resumes count ho
          rw [hrun, Trace.tokens_append, Trace.tokens_report, Trace.tokens_ofTokens]
          cases hresumes with
          | read hread => exact hskip hfirst hread (hcount hrest)
          | ended hnone =>
              rw [hnone, List.take_nil]
              exact hnil
          | @stalled t more hnone =>
              rw [hnone] at hfront ⊢
              obtain rfl : t = front := hfront
              obtain ⟨ht, hrest⟩ := List.forall_mem_cons.1 hrest
              exact hstalled ht (hcount hrest)

theorem consumes_items (hread : Additive read)
    (hitem : ∀ t, stops t = false → ConsumesAt t item read)
    (hstalled : ∀ t : Token, stops t = false → t.WellFormed → read [t])
    (hcount : ∀ {ts : List Token}, (∀ t ∈ ts, t.WellFormed) → read (ts.take (count ts))) :
    Consumes (items stops count item) read := by
  refine consumes_fix hread (fun self hself _ front => ?_) ()
  refine consumesAt_atEnd_bind fun done => consumes_current_bind (fun t => ?_) front
  split
  · exact consumesAt_pure hread _
  · next hgo =>
    simp only [Bool.or_eq_true, not_or, Bool.not_eq_true] at hgo
    refine consumesAt_seq hread ?_ fun found _ => consumesAt_map (hself () _)
    refine consumesAt_recovering (hitem t hgo.2) hcount hread.nil id ?_ ?_
    · exact fun hwf hr => hread.append (hstalled t hgo.2 hwf) hr
    · exact fun hs _ hr => hread.append hs hr

end

/-! ## Tokens read by a run that yields a value -/

/-- With a given token at the front, no value is yielded unless a token is read. -/
def AdvancesAt (front : Token) (p : Parse α) : Prop :=
  ∀ ⦃finish ahead a⦄, frontOf finish ahead = front → (p.run finish ahead).value = .ok a →
    (p.run finish ahead).trace.tokens ≠ []

def Advances (p : Parse α) : Prop := ∀ front, AdvancesAt front p

section

variable {front : Token} {p : Parse α} {f : α → Parse β}

theorem bind_run_ok {finish : Location} {ahead : List Token} {b : β}
    (h : ((p >>= f).run finish ahead).value = .ok b) :
    ∃ a, (p.run finish ahead).value = .ok a ∧
      ((f a).run finish (p.run finish ahead).rest).value = .ok b ∧
      ((p >>= f).run finish ahead).trace.tokens = (p.run finish ahead).trace.tokens ++
        ((f a).run finish (p.run finish ahead).rest).trace.tokens := by
  rcases run_bind_cases p f finish ahead with
    ⟨e, trace, rest, -, hbind⟩ | ⟨a, trace, rest, hrun, hbind⟩
  · rw [hbind] at h
    exact absurd h (by simp)
  · rw [hbind] at h ⊢
    rw [hrun]
    exact ⟨a, rfl, h, Trace.tokens_append _ _⟩

theorem advancesAt_bind (hp : AdvancesAt front p) : AdvancesAt front (p >>= f) := by
  intro finish ahead b hfront hvalue
  obtain ⟨a, ha, -, htokens⟩ := bind_run_ok hvalue
  rw [htokens]
  exact List.append_ne_nil_of_left_ne_nil (hp hfront ha) _

theorem advances_bind (hp : Advances p) : Advances (p >>= f) :=
  fun front => advancesAt_bind (hp front)

theorem advances_seq (hf : ∀ a, Advances (f a)) : Advances (p >>= f) := by
  intro front finish ahead b _ hvalue
  obtain ⟨a, -, hb, htokens⟩ := bind_run_ok hvalue
  rw [htokens]
  exact List.append_ne_nil_of_right_ne_nil _ (hf a _ rfl hb)

theorem advances_current_bind {f : Token → Parse β} (h : ∀ t, AdvancesAt t (f t)) :
    Advances (current >>= f) :=
  fun _ _ _ _ _ hvalue => h _ rfl hvalue

theorem advancesAt_advance (h : ∀ l, front ≠ .endOfFile l) : AdvancesAt front advance := by
  intro finish ahead t hfront _
  cases ahead with
  | nil => exact absurd hfront.symm (h finish)
  | cons u rest => exact List.cons_ne_nil _ _

theorem advancesAt_fail (e : SyntaxError) : AdvancesAt front (fail e : Parse α) := by
  intro finish ahead a _ hvalue
  exact absurd hvalue (by simp [fail])

theorem advancesAt_refuse (what : Expectation) : AdvancesAt front (refuse what : Parse α) := by
  intro finish ahead a _ hvalue
  have hrun : (refuse what : Parse α).run finish ahead =
      ⟨.error ⟨(frontOf finish ahead).location, .expected what (frontOf finish ahead).toLexeme⟩,
        [], ahead⟩ := rfl
  rw [hrun] at hvalue
  exact absurd hvalue (by simp)

theorem advancesAt_map {g : α → β} (hp : AdvancesAt front p) : AdvancesAt front (g <$> p) := by
  rw [map_eq_bind]
  exact advancesAt_bind hp

theorem advances_check_bind {x : Terminal} {f : Bool → Parse β}
    (htrue : front.terminal = x → AdvancesAt front (f true))
    (hfalse : front.terminal ≠ x → AdvancesAt front (f false)) :
    AdvancesAt front (check x >>= f) := by
  rintro finish ahead b rfl hvalue
  have hrun : (check x >>= f).run finish ahead =
      (f ((frontOf finish ahead).terminal == x)).run finish ahead := rfl
  rw [hrun] at hvalue ⊢
  by_cases hx : (frontOf finish ahead).terminal = x
  · rw [hx, beq_self_eq_true] at hvalue ⊢
    exact htrue hx rfl hvalue
  · rw [beq_eq_false_iff_ne.2 hx] at hvalue ⊢
    exact hfalse hx rfl hvalue

theorem advances_expect {x : Terminal} (hx : x ≠ .unreserved) : Advances (expect x) := by
  intro front
  refine advances_check_bind (fun hfront => advancesAt_advance ?_) fun _ => advancesAt_refuse _
  rintro l rfl
  exact hx hfront.symm

theorem advances_expectKind {k : TokenKind} (hk : k ≠ .endOfFile) : Advances (expectKind k) := by
  refine advances_current_bind fun t => ?_
  split
  · next ht =>
    apply advancesAt_advance
    rintro l rfl
    exact hk ht.symm
  · exact advancesAt_refuse _

theorem advances_accept_bind {x : Terminal} {f : Bool → Parse β} (hx : x ≠ .unreserved)
    (h : front.terminal ≠ x → AdvancesAt front (f false)) :
    AdvancesAt front (accept x >>= f) := by
  intro finish ahead b hfront hvalue
  obtain ⟨answer, hanswer, hnext, htokens⟩ := bind_run_ok hvalue
  rw [htokens]
  cases ahead with
  | nil =>
      rw [accept_run_nil hx] at hanswer hnext ⊢
      obtain rfl : false = answer := Except.ok.inj hanswer
      subst hfront
      exact h (fun hend => hx hend.symm) rfl hnext
  | cons t rest =>
      obtain rfl : t = front := hfront
      rw [accept_run_cons] at hanswer hnext ⊢
      split
      · exact List.cons_ne_nil _ _
      · next ht =>
        rw [if_neg ht] at hanswer hnext
        obtain rfl : false = answer := Except.ok.inj hanswer
        exact h ht rfl hnext

theorem advances_fix {body : (β → Parse α) → β → Parse α}
    (h : ∀ self b, Advances (body self b)) (b : β) : Advances (fix body b) := by
  intro front finish ahead a hfront hvalue
  rw [fix_run] at hvalue ⊢
  exact h _ b front hfront hvalue

end

/-! ## Rounds of a list -/

theorem length_rest_lt {p : Parse α} {finish : Location} {ahead rest : List Token}
    {value : Except SyntaxError α} {trace : Trace}
    (h : p.run finish ahead = ⟨value, trace, rest⟩) (hadvance : trace.tokens ≠ []) :
    rest.length < ahead.length := by
  have hahead := p.conserves finish ahead
  simp only [h] at hahead
  have hpos := List.length_pos_iff.2 hadvance
  rw [← hahead, List.length_append]
  omega

section

variable {stops : Token → Bool} {count : List Token → Nat} {item : Parse (Option α)}
  {finish : Location} {ahead rest : List Token}

/-- Each round of a list reads a token. -/
theorem recovering_advances (h : AdvancesAt (frontOf finish ahead) item) (hne : ahead ≠ []) :
    ∃ found trace rest, (recovering count item).run finish ahead = ⟨.ok found, trace, rest⟩ ∧
      trace.tokens ≠ [] := by
  cases ho : item.run finish ahead with
  | mk value trace rest =>
      have hahead := item.conserves finish ahead
      rw [ho] at hahead
      cases value with
      | ok found =>
          refine ⟨found, trace, rest, recovering_run_ok ho, ?_⟩
          have hadvance := h (a := found) rfl
          rw [ho] at hadvance
          exact hadvance rfl
      | error e =>
          obtain ⟨lost, more, hresumes, hrun⟩ := recovering_resumes count ho
          refine ⟨none, _, _, hrun, ?_⟩
          rw [Trace.tokens_append, Trace.tokens_report, Trace.tokens_ofTokens]
          cases hresumes with
          | read hread => exact List.append_ne_nil_of_left_ne_nil hread _
          | ended hnone =>
              rw [hnone] at hahead
              exact absurd hahead.symm hne
          | stalled hnone =>
              rw [hnone]
              exact List.cons_ne_nil _ _

private theorem items_run (stops : Token → Bool) (count : List Token → Nat)
    (item : Parse (Option α)) (finish : Location) (ahead : List Token) :
    (items stops count item).run finish ahead =
      (if ahead.isEmpty || stops (frontOf finish ahead) then (pure [] : Parse (List α))
        else recovering count item >>= fun found =>
          (found.toList ++ ·) <$>
            below ahead.length (items stops count item)).run finish ahead := by
  rw [items, fix_run]
  rfl

theorem items_run_stop (h : ahead = [] ∨ stops (frontOf finish ahead) = true) :
    (items stops count item).run finish ahead = ⟨.ok [], [], ahead⟩ := by
  have hstop : (ahead.isEmpty || stops (frontOf finish ahead)) = true := by
    rwa [Bool.or_eq_true, List.isEmpty_iff]
  rw [items_run, if_pos hstop]
  rfl

theorem items_run_go {found : Option α} {trace : Trace} (hne : ahead ≠ [])
    (hgo : stops (frontOf finish ahead) = false)
    (hround : (recovering count item).run finish ahead = ⟨.ok found, trace, rest⟩)
    (hadvance : trace.tokens ≠ []) :
    (items stops count item).run finish ahead =
      let others := (items stops count item).run finish rest
      ⟨others.value.map (found.toList ++ ·), trace ++ others.trace, others.rest⟩ := by
  have hstop : ¬ (ahead.isEmpty || stops (frontOf finish ahead)) = true := by
    simp [hne, hgo]
  have hlt := length_rest_lt hround hadvance
  rw [items_run, if_neg hstop]
  show ((recovering count item).run finish ahead).andThen _ = _
  rw [hround]
  show (⟨((below ahead.length (items stops count item)).run finish rest).value.map _, trace ++
    ((below ahead.length (items stops count item)).run finish rest).trace,
    ((below ahead.length (items stops count item)).run finish rest).rest⟩ : Outcome _) = _
  rw [below_run hlt]

theorem items_run_ok {found : Option α} {others : List α} {trace trace' : Trace}
    {left : List Token} (hne : ahead ≠ []) (hgo : stops (frontOf finish ahead) = false)
    (hround : (recovering count item).run finish ahead = ⟨.ok found, trace, rest⟩)
    (hadvance : trace.tokens ≠ [])
    (hothers : (items stops count item).run finish rest = ⟨.ok others, trace', left⟩) :
    (items stops count item).run finish ahead =
      ⟨.ok (found.toList ++ others), trace ++ trace', left⟩ := by
  rw [items_run_go hne hgo hround hadvance, hothers]
  rfl

/-- A list whose items read something goes on to where it stops, and yields its items. -/
theorem items_ok (h : ∀ t, stops t = false → AdvancesAt t item) (finish : Location)
    (ahead : List Token) :
    ∃ found trace rest, (items stops count item).run finish ahead = ⟨.ok found, trace, rest⟩ ∧
      (rest = [] ∨ stops (frontOf finish rest) = true) := by
  induction hn : ahead.length using Nat.strongRecOn generalizing ahead with
  | ind n ih =>
      by_cases hstop : ahead = [] ∨ stops (frontOf finish ahead) = true
      · exact ⟨[], [], ahead, items_run_stop hstop, hstop⟩
      · obtain ⟨hne, hgo⟩ := not_or.1 hstop
        rw [Bool.not_eq_true] at hgo
        obtain ⟨found, trace, rest, hround, hadvance⟩ :=
          recovering_advances (h _ hgo) hne
        have hlt : rest.length < n := hn ▸ length_rest_lt hround hadvance
        obtain ⟨others, trace', rest', hothers, hend⟩ := ih rest.length hlt rest rfl
        exact ⟨_, _, rest', items_run_ok hne hgo hround hadvance hothers, hend⟩

end

end MiniJava.Grammar
