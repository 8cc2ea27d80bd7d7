import MiniJava.Grammar.Recovery
import MiniJava.Proofs.Production.Recursion
/-!
# Clean runs

A production runs cleanly over some tokens if it reads exactly these, reports nothing and
yields a value.  For each way of building productions, its clean runs are those of its
parts; what follows the tokens matters only through the token at its front.
-/

namespace MiniJava.Grammar

variable {α β : Type}

namespace Trace

theorem ofTokens_append (ts us : List Token) :
    ofTokens (ts ++ us) = ofTokens ts ++ ofTokens us := List.map_append

theorem ofTokens_inj {ts us : List Token} : ofTokens ts = ofTokens us ↔ ts = us := by
  constructor
  · intro h
    rw [← tokens_ofTokens ts, h, tokens_ofTokens]
  · exact congrArg ofTokens

/-- A trace without errors only reads tokens. -/
theorem eq_ofTokens {trace : Trace} (h : trace.errors = []) :
    trace = ofTokens trace.tokens := by
  induction trace with
  | nil => rfl
  | cons step trace ih =>
      cases step with
      | read t => exact congrArg (Step.read t :: ·) (ih h)
      | report e => exact absurd h (List.cons_ne_nil _ _)

end Trace

namespace Parse

/-! ## Runs of one production after another -/

section

variable {p : Parse α} {f : α → Parse β} {finish : Location} {ahead rest : List Token}
  {trace : Trace} {a : α} {e : SyntaxError}

theorem run_bind_of_error (h : p.run finish ahead = ⟨.error e, trace, rest⟩) :
    (p >>= f).run finish ahead = ⟨.error e, trace, rest⟩ := by
  have hrun : (p >>= f).run finish ahead =
      (p.run finish ahead).andThen fun a rest => (f a).run finish rest := rfl
  rw [hrun, h, Outcome.andThen]

theorem run_bind_of_ok (h : p.run finish ahead = ⟨.ok a, trace, rest⟩) :
    (p >>= f).run finish ahead = ⟨((f a).run finish rest).value,
      trace ++ ((f a).run finish rest).trace, ((f a).run finish rest).rest⟩ := by
  have hrun : (p >>= f).run finish ahead =
      (p.run finish ahead).andThen fun a rest => (f a).run finish rest := rfl
  rw [hrun, h, Outcome.andThen]

theorem run_of_outcome {value : Except SyntaxError α} (hvalue : (p.run finish ahead).value = value)
    (htrace : (p.run finish ahead).trace = trace) (hrest : (p.run finish ahead).rest = rest) :
    p.run finish ahead = ⟨value, trace, rest⟩ := by
  rw [← hvalue, ← htrace, ← hrest]

end

/-- The first of two productions fails, and that is all, or the second goes on with its value. -/
theorem run_bind_cases (p : Parse α) (f : α → Parse β) (finish : Location) (ahead : List Token) :
    (∃ e trace rest, p.run finish ahead = ⟨.error e, trace, rest⟩ ∧
      (p >>= f).run finish ahead = ⟨.error e, trace, rest⟩) ∨
    ∃ a trace rest, p.run finish ahead = ⟨.ok a, trace, rest⟩ ∧
      (p >>= f).run finish ahead = ⟨((f a).run finish rest).value,
        trace ++ ((f a).run finish rest).trace, ((f a).run finish rest).rest⟩ := by
  cases h : p.run finish ahead with
  | mk value trace rest =>
      cases value with
      | error e => exact .inl ⟨e, trace, rest, rfl, run_bind_of_error h⟩
      | ok a => exact .inr ⟨a, trace, rest, rfl, run_bind_of_ok h⟩

/-! ## Clean runs -/

/-- A production reads exactly some tokens, reports nothing and yields a value. -/
def Reads (p : Parse α) (finish : Location) (ts rest : List Token) (a : α) : Prop :=
  p.run finish (ts ++ rest) = ⟨.ok a, .ofTokens ts, rest⟩

variable {p : Parse α} {f : α → Parse β} {finish : Location} {ts rest : List Token} {a : α}
  {b : β}

theorem reads_of_run {ahead : List Token} {trace : Trace}
    (h : p.run finish ahead = ⟨.ok a, trace, rest⟩) (hclean : trace.errors = []) :
    ahead = trace.tokens ++ rest ∧ p.Reads finish trace.tokens rest a := by
  have hahead := p.conserves finish ahead
  rw [h] at hahead
  refine ⟨hahead.symm, ?_⟩
  rw [Reads, hahead, h, ← Trace.eq_ofTokens hclean]

theorem reads_of_outcome {ahead : List Token} (hvalue : (p.run finish ahead).value = .ok a)
    (hrest : (p.run finish ahead).rest = rest) (hclean : (p.run finish ahead).trace.errors = []) :
    ∃ ts, ahead = ts ++ rest ∧ p.Reads finish ts rest a := by
  have hrun : p.run finish ahead = ⟨.ok a, (p.run finish ahead).trace, rest⟩ := by
    rw [← hvalue, ← hrest]
  exact ⟨_, reads_of_run hrun hclean⟩

theorem reads_pure {a b : α} :
    (pure a : Parse α).Reads finish ts rest b ↔ ts = [] ∧ b = a := by
  have hrun : (pure a : Parse α).run finish (ts ++ rest) = ⟨.ok a, [], ts ++ rest⟩ := rfl
  rw [Reads, hrun, Outcome.mk.injEq, Except.ok.injEq]
  constructor
  · rintro ⟨rfl, -, h⟩
    exact ⟨List.append_left_eq_self.1 h, rfl⟩
  · rintro ⟨rfl, rfl⟩
    exact ⟨rfl, rfl, rfl⟩

theorem reads_fail {e : SyntaxError} : ¬ (fail e : Parse α).Reads finish ts rest a := by
  intro h
  have hvalue := congrArg Outcome.value h
  exact absurd hvalue (by simp [fail])

theorem reads_report {e : SyntaxError} {u : Unit} : ¬ (report e).Reads finish ts rest u := by
  intro h
  have htrace : Trace.errors [.report e] = Trace.errors (.ofTokens ts) :=
    congrArg (fun o => o.trace.errors) h
  rw [Trace.errors_ofTokens] at htrace
  exact absurd htrace (List.cons_ne_nil _ _)

/-- The clean runs of one production after another. -/
theorem reads_bind :
    (p >>= f).Reads finish ts rest b ↔
      ∃ s t a, ts = s ++ t ∧ p.Reads finish s (t ++ rest) a ∧ (f a).Reads finish t rest b := by
  constructor
  · intro h
    rcases run_bind_cases p f finish (ts ++ rest) with
      ⟨e, trace, ahead, -, hbind⟩ | ⟨a, trace, ahead, hfirst, hbind⟩
    · exact absurd (congrArg Outcome.value (hbind.symm.trans h)) (by simp)
    · obtain ⟨hvalue, htrace, hrest⟩ := Outcome.mk.inj (hbind.symm.trans h)
      have herrors := congrArg Trace.errors htrace
      rw [Trace.errors_append, Trace.errors_ofTokens, List.append_eq_nil_iff] at herrors
      obtain ⟨hsplit, hp⟩ := reads_of_run hfirst herrors.1
      have hf : (f a).run finish ahead = ⟨.ok b, ((f a).run finish ahead).trace, rest⟩ := by
        rw [← hvalue, ← hrest]
      obtain ⟨hsplit', hf'⟩ := reads_of_run hf herrors.2
      have htokens := congrArg Trace.tokens htrace
      rw [Trace.tokens_append, Trace.tokens_ofTokens] at htokens
      refine ⟨trace.tokens, _, a, htokens.symm, ?_, hf'⟩
      rwa [← hsplit']
  · rintro ⟨s, t, a, rfl, hp, hf⟩
    rw [Reads, List.append_assoc, run_bind_of_ok hp, hf, Trace.ofTokens_append]

theorem map_eq_bind (g : α → β) (p : Parse α) : g <$> p = p >>= fun a => pure (g a) := by
  ext1 finish ahead
  have hmap : (g <$> p).run finish ahead = ⟨(p.run finish ahead).value.map g,
      (p.run finish ahead).trace, (p.run finish ahead).rest⟩ := rfl
  rcases run_bind_cases p (fun a => pure (g a)) finish ahead with
    ⟨e, trace, rest, hrun, hbind⟩ | ⟨a, trace, rest, hrun, hbind⟩
  · rw [hmap, hbind, hrun]
    rfl
  · have hpure : (pure (g a) : Parse β).run finish rest = ⟨.ok (g a), [], rest⟩ := rfl
    rw [hmap, hbind, hrun, hpure, List.append_nil]
    rfl

theorem bind_pure (p : Parse α) : p >>= pure = p := by
  have hid : id <$> p = p := by
    ext1 finish ahead
    show (⟨(p.run finish ahead).value.map id, _, _⟩ : Outcome α) = _
    rw [Except.map_id]
    rfl
  exact (map_eq_bind id p).symm.trans hid

theorem reads_map {g : α → β} :
    (g <$> p).Reads finish ts rest b ↔ ∃ a, p.Reads finish ts rest a ∧ b = g a := by
  rw [map_eq_bind, reads_bind]
  constructor
  · rintro ⟨s, t, a, rfl, hp, hpure⟩
    obtain ⟨rfl, rfl⟩ := reads_pure.1 hpure
    rw [List.append_nil]
    exact ⟨a, hp, rfl⟩
  · rintro ⟨a, hp, rfl⟩
    exact ⟨ts, [], a, (List.append_nil ts).symm, hp, reads_pure.2 ⟨rfl, rfl⟩⟩

theorem reads_current_bind {f : Token → Parse β} :
    (current >>= f).Reads finish ts rest b ↔
      (f (frontOf finish (ts ++ rest))).Reads finish ts rest b := by
  have hrun : (current >>= f).run finish (ts ++ rest) =
      (f (frontOf finish (ts ++ rest))).run finish (ts ++ rest) := rfl
  rw [Reads, Reads, hrun]

theorem reads_atEnd_bind {f : Bool → Parse β} :
    (atEnd >>= f).Reads finish ts rest b ↔
      (f (ts ++ rest).isEmpty).Reads finish ts rest b := by
  have hrun : (atEnd >>= f).run finish (ts ++ rest) =
      (f (ts ++ rest).isEmpty).run finish (ts ++ rest) := rfl
  rw [Reads, Reads, hrun]

theorem reads_advance_bind {f : Token → Parse β} (h : ts ++ rest ≠ []) :
    (advance >>= f).Reads finish ts rest b ↔
      ∃ t us, ts = t :: us ∧ (f t).Reads finish us rest b := by
  rw [reads_bind]
  constructor
  · rintro ⟨s, us, t, rfl, hadvance, hf⟩
    cases hs : s ++ (us ++ rest) with
    | nil => exact absurd hs (by rwa [List.append_assoc] at h)
    | cons u more =>
        rw [Reads, hs] at hadvance
        obtain ⟨ht, htrace, hrest⟩ := Outcome.mk.inj hadvance
        obtain rfl := Except.ok.inj ht
        obtain rfl : [u] = s := Trace.ofTokens_inj.1 htrace
        exact ⟨u, us, rfl, hf⟩
  · rintro ⟨t, us, rfl, hf⟩
    exact ⟨[t], us, t, rfl, rfl, hf⟩

theorem reads_below {bound : Nat} :
    (below bound p).Reads finish ts rest a ↔
      (ts ++ rest).length < bound ∧ p.Reads finish ts rest a := by
  by_cases h : (ts ++ rest).length < bound
  · rw [Reads, below_run h]
    exact ⟨fun hp => ⟨h, hp⟩, And.right⟩
  · rw [Reads, below_run_of_le (Nat.not_lt.1 h)]
    constructor
    · intro hp
      exact absurd (congrArg Outcome.value hp) (by simp [exhausted])
    · exact fun hp => absurd hp.1 h

theorem reads_fix {body : (β → Parse α) → β → Parse α} :
    (fix body b).Reads finish ts rest a ↔
      (body (fun b' => below (ts ++ rest).length (fix body b')) b).Reads finish ts rest a := by
  rw [Reads, fix_run, Reads]

/-- A production yields a value and leaves some tokens, whatever it reports. -/
def Yields (p : Parse α) (finish : Location) (ahead rest : List Token) (a : α) : Prop :=
  ∃ trace, p.run finish ahead = ⟨.ok a, trace, rest⟩

theorem Reads.yields (h : p.Reads finish ts rest a) : p.Yields finish (ts ++ rest) rest a :=
  ⟨_, h⟩

theorem yields_pure {ahead : List Token} : (pure a : Parse α).Yields finish ahead ahead a :=
  ⟨[], rfl⟩

theorem yields_bind {ahead middle : List Token} (hp : p.Yields finish ahead middle a)
    (hf : (f a).Yields finish middle rest b) : (p >>= f).Yields finish ahead rest b := by
  obtain ⟨trace, hp⟩ := hp
  obtain ⟨trace', hf⟩ := hf
  refine ⟨trace ++ trace', ?_⟩
  show (p.run finish ahead).andThen _ = _
  rw [hp, Outcome.andThen, hf]

theorem Yields.tokens_eq (h : p.Yields finish (ts ++ rest) rest a) :
    ∃ trace, p.run finish (ts ++ rest) = ⟨.ok a, trace, rest⟩ ∧ trace.tokens = ts := by
  obtain ⟨trace, h⟩ := h
  have hahead := p.conserves finish (ts ++ rest)
  rw [h] at hahead
  exact ⟨trace, h, List.append_cancel_right hahead⟩

end Parse

open Parse

variable {finish : Location} {ts rest : List Token} {a : α} {b : β}

/-! ## Asking for tokens -/

theorem reads_check_bind {x : Terminal} {f : Bool → Parse β} :
    (check x >>= f).Reads finish ts rest b ↔
      (f ((frontOf finish (ts ++ rest)).terminal == x)).Reads finish ts rest b := by
  have hrun : (check x >>= f).run finish (ts ++ rest) =
      (f ((frontOf finish (ts ++ rest)).terminal == x)).run finish (ts ++ rest) := rfl
  rw [Reads, Reads, hrun]

theorem reads_refuse {what : Expectation} : ¬ (refuse what : Parse α).Reads finish ts rest a := by
  intro h
  have hvalue := congrArg Outcome.value h
  exact absurd hvalue (by simp [refuse, unexpected, bind, Parse.bind, Outcome.andThen, current,
    pure, Parse.pure, fail])

private theorem reads_sort (sort : Token → Prop) [DecidablePred sort] {what : Expectation}
    (hend : ∀ l, ¬ sort (.endOfFile l)) {t : Token} :
    (if sort (frontOf finish (ts ++ rest)) then advance else refuse what).Reads finish ts rest t ↔
      ts = [t] ∧ sort t := by
  by_cases hsort : sort (frontOf finish (ts ++ rest))
  · have hne : ts ++ rest ≠ [] := by
      intro hnil
      rw [hnil] at hsort
      exact hend finish hsort
    rw [if_pos hsort, ← bind_pure advance, reads_advance_bind hne]
    constructor
    · rintro ⟨u, us, rfl, h⟩
      obtain ⟨rfl, rfl⟩ := reads_pure.1 h
      exact ⟨rfl, hsort⟩
    · rintro ⟨rfl, -⟩
      exact ⟨t, [], rfl, reads_pure.2 ⟨rfl, rfl⟩⟩
  · rw [if_neg hsort]
    constructor
    · exact fun h => absurd h reads_refuse
    · rintro ⟨rfl, h⟩
      exact absurd h hsort

theorem reads_expect {x : Terminal} (hx : x ≠ .unreserved) {t : Token} :
    (expect x).Reads finish ts rest t ↔ ts = [t] ∧ t.terminal = x := by
  rw [expect, reads_check_bind]
  simp only [beq_iff_eq]
  exact reads_sort (·.terminal = x) fun _ h => hx h.symm

theorem reads_expectKind {k : TokenKind} (hk : k ≠ .endOfFile) {t : Token} :
    (expectKind k).Reads finish ts rest t ↔ ts = [t] ∧ t.kind = k := by
  rw [expectKind, reads_current_bind]
  exact reads_sort (·.kind = k) fun _ h => hk h.symm

theorem reads_expect_bind {x : Terminal} {f : Token → Parse β} (hx : x ≠ .unreserved) :
    (expect x >>= f).Reads finish ts rest b ↔
      ∃ t us, ts = t :: us ∧ t.terminal = x ∧ (f t).Reads finish us rest b := by
  rw [reads_bind]
  constructor
  · rintro ⟨s, us, t, rfl, hp, hf⟩
    obtain ⟨rfl, ht⟩ := (reads_expect hx).1 hp
    exact ⟨t, us, rfl, ht, hf⟩
  · rintro ⟨t, us, rfl, ht, hf⟩
    exact ⟨[t], us, t, rfl, (reads_expect hx).2 ⟨rfl, ht⟩, hf⟩

theorem expect_bind_run {x : Terminal} {f : Token → Parse β} (hx : x ≠ .unreserved) {t : Token}
    (ht : t.terminal = x) (ahead : List Token) :
    (expect x >>= f).run finish (t :: ahead) =
      let o := (f t).run finish ahead
      ⟨o.value, .read t :: o.trace, o.rest⟩ := by
  have hread : (expect x).Reads finish [t] ahead t := (reads_expect hx).2 ⟨rfl, ht⟩
  exact run_bind_of_ok hread

theorem expect_bind_run_of_ne {x : Terminal} {f : Token → Parse β} {ahead : List Token}
    (h : (frontOf finish ahead).terminal ≠ x) :
    (expect x >>= f).run finish ahead = ⟨.error ⟨(frontOf finish ahead).location,
      .expected (.terminal x) (frontOf finish ahead).toLexeme⟩, [], ahead⟩ := by
  have hne : ¬ ((frontOf finish ahead).terminal == x) = true := fun heq => h (beq_iff_eq.1 heq)
  show ((if (frontOf finish ahead).terminal == x then advance
    else refuse (.terminal x)).run finish ahead).andThen _ = _
  rw [if_neg hne]
  rfl

theorem yields_expect_bind {x : Terminal} {f : Token → Parse β} (hx : x ≠ .unreserved)
    {t : Token} {ahead : List Token} (ht : t.terminal = x)
    (hf : (f t).Yields finish ahead rest b) :
    (expect x >>= f).Yields finish (t :: ahead) rest b := by
  have hread : (expect x).Reads finish [t] ahead t := (reads_expect hx).2 ⟨rfl, ht⟩
  exact yields_bind hread.yields hf

theorem reads_expectKind_bind {k : TokenKind} {f : Token → Parse β} (hk : k ≠ .endOfFile) :
    (expectKind k >>= f).Reads finish ts rest b ↔
      ∃ t us, ts = t :: us ∧ t.kind = k ∧ (f t).Reads finish us rest b := by
  rw [reads_bind]
  constructor
  · rintro ⟨s, us, t, rfl, hp, hf⟩
    obtain ⟨rfl, ht⟩ := (reads_expectKind hk).1 hp
    exact ⟨t, us, rfl, ht, hf⟩
  · rintro ⟨t, us, rfl, ht, hf⟩
    exact ⟨[t], us, t, rfl, (reads_expectKind hk).2 ⟨rfl, ht⟩, hf⟩

theorem reads_identifier {name : String} :
    identifier.Reads finish ts rest name ↔
      ∃ t, ts = [t] ∧ t.kind = .identifier ∧ name = t.text := by
  rw [identifier, reads_map]
  simp only [reads_expectKind (k := .identifier) (by decide), and_assoc]

theorem reads_identifier_bind {f : String → Parse β} :
    (identifier >>= f).Reads finish ts rest b ↔
      ∃ t us, ts = t :: us ∧ t.kind = .identifier ∧ (f t.text).Reads finish us rest b := by
  rw [reads_bind]
  constructor
  · rintro ⟨s, us, name, rfl, hp, hf⟩
    obtain ⟨t, rfl, ht, rfl⟩ := reads_identifier.1 hp
    exact ⟨t, us, rfl, ht, hf⟩
  · rintro ⟨t, us, rfl, ht, hf⟩
    exact ⟨[t], us, t.text, rfl, reads_identifier.2 ⟨t, rfl, ht, rfl⟩, hf⟩

theorem accept_run_cons {x : Terminal} (t : Token) (more : List Token) :
    (accept x).run finish (t :: more) =
      if t.terminal = x then ⟨.ok true, [.read t], more⟩ else ⟨.ok false, [], t :: more⟩ := by
  by_cases h : t.terminal = x
  · simp [accept, check, bind, Parse.bind, Outcome.andThen, current, pure, Parse.pure, frontOf,
      advance, h]
  · simp [accept, check, bind, Parse.bind, Outcome.andThen, current, pure, Parse.pure, frontOf, h]

theorem accept_run_nil {x : Terminal} (hx : x ≠ .unreserved) :
    (accept x).run finish [] = ⟨.ok false, [], []⟩ := by
  have hend : ¬ (Token.endOfFile finish).terminal = x := fun h => hx h.symm
  simp [accept, check, bind, Parse.bind, Outcome.andThen, current, pure, Parse.pure, frontOf, hend]

theorem accept_run_of_ne {x : Terminal} (hx : x ≠ .unreserved) {ahead : List Token}
    (h : (frontOf finish ahead).terminal ≠ x) :
    (accept x).run finish ahead = ⟨.ok false, [], ahead⟩ := by
  cases ahead with
  | nil => exact accept_run_nil hx
  | cons t more =>
      rw [accept_run_cons]
      exact if_neg h

theorem reads_accept {x : Terminal} (hx : x ≠ .unreserved) {answer : Bool} :
    (accept x).Reads finish ts rest answer ↔
      (∃ t, ts = [t] ∧ t.terminal = x ∧ answer = true) ∨
        ts = [] ∧ (frontOf finish rest).terminal ≠ x ∧ answer = false := by
  rw [Reads]
  cases ts with
  | nil =>
      cases rest with
      | nil =>
          have hend : (frontOf finish []).terminal ≠ x := fun h => hx h.symm
          rw [List.nil_append, accept_run_nil hx]
          simp [Trace.ofTokens, hend, eq_comm]
      | cons u more =>
          rw [List.nil_append, accept_run_cons]
          split
          · next hu => simp [Trace.ofTokens, frontOf, hu]
          · next hu => simp [Trace.ofTokens, frontOf, hu, eq_comm]
  | cons t more =>
      rw [List.cons_append, accept_run_cons]
      split
      · next ht =>
        cases more with
        | nil => simp [Trace.ofTokens, ht, eq_comm]
        | cons => simp [Trace.ofTokens]
      · next ht => simp [Trace.ofTokens, ht]

theorem reads_accept_bind {x : Terminal} {f : Bool → Parse β} (hx : x ≠ .unreserved) :
    (accept x >>= f).Reads finish ts rest b ↔
      (∃ t us, ts = t :: us ∧ t.terminal = x ∧ (f true).Reads finish us rest b) ∨
        (frontOf finish (ts ++ rest)).terminal ≠ x ∧ (f false).Reads finish ts rest b := by
  rw [reads_bind]
  simp only [reads_accept hx]
  constructor
  · rintro ⟨s, us, answer, rfl, ⟨t, rfl, ht, rfl⟩ | ⟨rfl, ht, rfl⟩, hf⟩
    · exact .inl ⟨t, us, rfl, ht, hf⟩
    · exact .inr ⟨ht, hf⟩
  · rintro (⟨t, us, rfl, ht, hf⟩ | ⟨ht, hf⟩)
    · exact ⟨[t], us, true, rfl, .inl ⟨t, rfl, ht, rfl⟩, hf⟩
    · exact ⟨[], ts, false, rfl, .inr ⟨rfl, ht, rfl⟩, hf⟩

/-! ## Lists -/

theorem reads_attempt {p : Parse α} {result : Except SyntaxError α} {stalled : Bool} :
    (attempt p).Reads finish ts rest (result, stalled) ↔
      p.run finish (ts ++ rest) = ⟨result, .ofTokens ts, rest⟩ ∧ stalled = ts.isEmpty := by
  have hrun : (attempt p).run finish (ts ++ rest) =
      ⟨.ok ((p.run finish (ts ++ rest)).value, (p.run finish (ts ++ rest)).trace.tokens.isEmpty),
        (p.run finish (ts ++ rest)).trace, (p.run finish (ts ++ rest)).rest⟩ := rfl
  rw [Reads, hrun]
  cases p.run finish (ts ++ rest) with
  | mk value trace ahead =>
      simp only [Outcome.mk.injEq, Except.ok.injEq, Prod.mk.injEq]
      constructor
      · rintro ⟨⟨rfl, rfl⟩, rfl, rfl⟩
        rw [Trace.tokens_ofTokens]
        exact ⟨⟨rfl, rfl, rfl⟩, rfl⟩
      · rintro ⟨⟨rfl, rfl, rfl⟩, rfl⟩
        rw [Trace.tokens_ofTokens]
        exact ⟨⟨rfl, rfl⟩, rfl, rfl⟩

/-- An item that is read cleanly is kept, and nothing is skipped after it. -/
theorem reads_recovering {count : List Token → Nat} {item : Parse (Option α)}
    {found : Option α} :
    (recovering count item).Reads finish ts rest found ↔ item.Reads finish ts rest found := by
  rw [recovering, reads_bind]
  constructor
  · rintro ⟨s, t, ⟨result, stalled⟩, rfl, hattempt, h⟩
    obtain ⟨hrun, -⟩ := reads_attempt.1 hattempt
    cases result with
    | ok value =>
        obtain ⟨rfl, rfl⟩ := reads_pure.1 h
        rwa [List.append_nil]
    | error e =>
        obtain ⟨_, _, _, _, hreport, _⟩ := reads_bind.1 h
        exact absurd hreport reads_report
  · intro h
    refine ⟨ts, [], (.ok found, ts.isEmpty), (List.append_nil ts).symm, ?_, reads_pure.2 ⟨rfl, rfl⟩⟩
    exact reads_attempt.2 ⟨h, rfl⟩

/-- A list either stops at once or goes on after an item that took a token. -/
theorem reads_items {stops : Token → Bool} {count : List Token → Nat}
    {item : Parse (Option α)} {found : List α} :
    (items stops count item).Reads finish ts rest found ↔
      ((ts ++ rest = [] ∨ stops (frontOf finish (ts ++ rest)) = true) ∧ ts = [] ∧ found = []) ∨
        (ts ++ rest ≠ [] ∧ stops (frontOf finish (ts ++ rest)) = false ∧
          ∃ s t first others, ts = s ++ t ∧ s ≠ [] ∧ item.Reads finish s (t ++ rest) first ∧
            (items stops count item).Reads finish t rest others ∧
              found = first.toList ++ others) := by
  rw [items, reads_fix, reads_atEnd_bind, reads_current_bind, ← items]
  split
  · next h =>
    rw [reads_pure]
    simp only [Bool.or_eq_true, List.isEmpty_iff] at h
    constructor
    · exact fun hnil => .inl ⟨h, hnil⟩
    · rintro (⟨-, hnil⟩ | ⟨hne, hgo, -⟩)
      · exact hnil
      · rw [hgo] at h
        exact absurd h (by simp [hne])
  · next h =>
    simp only [Bool.or_eq_true, List.isEmpty_iff, not_or, Bool.not_eq_true] at h
    obtain ⟨hne, hgo⟩ := h
    simp only [reads_bind, reads_recovering, reads_map, reads_below]
    constructor
    · rintro ⟨s, t, first, rfl, hitem, others, ⟨hlt, hothers⟩, rfl⟩
      have hs : s ≠ [] := by
        rintro rfl
        exact absurd hlt (by simp)
      exact .inr ⟨hne, hgo, s, t, first, others, rfl, hs, hitem, hothers, rfl⟩
    · rintro (⟨hnil | hstop, -⟩ | ⟨-, -, s, t, first, others, rfl, hs, hitem, hothers, rfl⟩)
      · exact absurd hnil hne
      · rw [hgo] at hstop
        exact absurd hstop Bool.false_ne_true
      · have hlt : (t ++ rest).length < (s ++ t ++ rest).length := by
          have := List.length_pos_iff.2 hs
          simp only [List.length_append]
          omega
        exact ⟨s, t, first, rfl, hitem, others, ⟨hlt, hothers⟩, rfl⟩

theorem reads_keep {wanted : NodeKind} {node : Node} {found : Option Node} :
    (keep wanted node).Reads finish ts rest found ↔
      ts = [] ∧ node.kind = wanted ∧ found = some node := by
  unfold keep
  split
  · next h =>
    rw [reads_pure]
    exact ⟨fun ⟨hts, hfound⟩ => ⟨hts, h, hfound⟩, fun ⟨hts, _, hfound⟩ => ⟨hts, hfound⟩⟩
  · next h =>
    constructor
    · intro hreads
      obtain ⟨_, _, _, _, hreport, _⟩ := reads_bind.1 hreads
      exact absurd hreport reads_report
    · exact fun hkeep => absurd hkeep.2.1 h

theorem reads_commaSeparated {item : Parse α} {found : List α} :
    (commaSeparated item).Reads finish ts rest found ↔
      ∃ s t first, ts = s ++ t ∧ item.Reads finish s (t ++ rest) first ∧
        ((∃ c u others, t = c :: u ∧ c.terminal = .comma ∧
            (commaSeparated item).Reads finish u rest others ∧ found = first :: others) ∨
          (frontOf finish rest).terminal ≠ .comma ∧ t = [] ∧ found = [first]) := by
  rw [commaSeparated, reads_fix, ← commaSeparated, reads_bind]
  simp only [reads_accept_bind (x := .comma) (by decide), if_true, Bool.false_eq_true, if_false,
    reads_map, reads_below, reads_pure]
  constructor
  · rintro ⟨s, t, first, rfl, hitem, ⟨c, u, rfl, hc, others, ⟨-, hothers⟩, rfl⟩ | ⟨hc, rfl, rfl⟩⟩
    · exact ⟨s, c :: u, first, rfl, hitem, .inl ⟨c, u, others, rfl, hc, hothers, rfl⟩⟩
    · exact ⟨s, [], first, rfl, hitem, .inr ⟨hc, rfl, rfl⟩⟩
  · rintro ⟨s, t, first, rfl, hitem, ⟨c, u, others, rfl, hc, hothers, rfl⟩ | ⟨hc, rfl, rfl⟩⟩
    · refine ⟨s, c :: u, first, rfl, hitem, .inl ⟨c, u, rfl, hc, others, ⟨?_, hothers⟩, rfl⟩⟩
      simp only [List.length_append, List.length_cons]
      omega
    · exact ⟨s, [], first, rfl, hitem, .inr ⟨hc, rfl, rfl⟩⟩

end MiniJava.Grammar
