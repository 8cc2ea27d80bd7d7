import MiniJava.Proofs.Production.CleanRun
import MiniJava.Proofs.Tree.Relocation
/-!
# Simulation

Two productions simulate each other if they do alike on tokens that are alike up to one
token past those read: nothing depends on what comes later, nor on places other than to
copy them.  The two token lists differ in length by a fixed amount.  There is one rule for
each way of building productions.
-/

namespace MiniJava.Grammar

open Parse Relocatable

variable {α β γ : Type} [Relocatable α] [Relocatable β] [Relocatable γ]

/-- The first tokens are alike; where there are fewer, so are the ends. -/
structure Agree (φ : Location → Location) (n : Nat) (finish finish' : Location)
    (ahead ahead' : List Token) : Prop where
  tokens : Alike φ (ahead.take n) (ahead'.take n)
  ends : ahead.length < n → φ finish = φ finish'

def Simulates (φ : Location → Location) (shift : Int) (p p' : Parse α) : Prop :=
  ∀ ⦃finish finish' ahead ahead'⦄, (ahead'.length : Int) = ahead.length + shift →
    Agree φ ((p.run finish ahead).trace.tokens.length + 1) finish finish' ahead ahead' →
    Alike φ (p.run finish ahead).value (p'.run finish' ahead').value ∧
      Alike φ (p.run finish ahead).trace (p'.run finish' ahead').trace

section

variable {φ : Location → Location} {shift : Int} {m n : Nat} {finish finish' : Location}
  {ahead ahead' : List Token}

theorem Agree.mono (h : Agree φ n finish finish' ahead ahead') (hm : m ≤ n) :
    Agree φ m finish finish' ahead ahead' where
  tokens := by
    have htake := congrArg (List.take m) h.tokens
    simpa [Alike, List.take_take, Nat.min_eq_left hm] using htake
  ends hlt := h.ends (by omega)

theorem Agree.drop (h : Agree φ (m + n) finish finish' ahead ahead') (hm : m ≤ ahead.length) :
    Agree φ n finish finish' (ahead.drop m) (ahead'.drop m) where
  tokens := by
    have hdrop := congrArg (List.drop m) h.tokens
    simpa [Alike, List.drop_take] using hdrop
  ends hlt := h.ends (by rw [List.length_drop] at hlt; omega)

theorem Agree.front (h : Agree φ (n + 1) finish finish' ahead ahead') :
    ahead = [] ∧ ahead' = [] ∧ φ finish = φ finish' ∨
      ∃ x l l' rest rest', ahead = ⟨x, l⟩ :: rest ∧ ahead' = ⟨x, l'⟩ :: rest' ∧ φ l = φ l' := by
  have htokens := h.tokens
  cases ahead with
  | nil =>
      cases ahead' with
      | nil => exact .inl ⟨rfl, rfl, h.ends (Nat.succ_pos n)⟩
      | cons t' rest' => simp [Alike] at htokens
  | cons t rest =>
      cases ahead' with
      | nil => simp [Alike] at htokens
      | cons t' rest' =>
          obtain ⟨x, l⟩ := t
          obtain ⟨x', l'⟩ := t'
          simp only [List.take_succ_cons, Alike, move_cons, List.cons.injEq, move_token,
            Token.mk.injEq] at htokens
          obtain ⟨⟨rfl, hl⟩, -⟩ := htokens
          exact .inr ⟨x, l, l', rest, rest', rfl, rfl, hl⟩

theorem Trace.tokens_move (trace : Trace) :
    Trace.tokens (move φ trace) = move φ trace.tokens := by
  induction trace with
  | nil => rfl
  | cons step trace ih =>
      cases step with
      | read t => exact congrArg (move φ t :: ·) ih
      | report e => exact ih

theorem Trace.errors_move (trace : Trace) :
    Trace.errors (move φ trace) = move φ trace.errors := by
  induction trace with
  | nil => rfl
  | cons step trace ih =>
      cases step with
      | read t => exact ih
      | report e => exact congrArg (move φ e :: ·) ih

theorem length_tokens_of_alike {trace trace' : Trace} (h : Alike φ trace trace') :
    trace.tokens.length = trace'.tokens.length := by
  have htokens := congrArg (fun s => (Trace.tokens s).length) h
  simpa [Trace.tokens_move] using htokens

omit [Relocatable α] in
theorem rest_eq_drop (p : Parse α) (finish : Location) (ahead : List Token) :
    (p.run finish ahead).rest = ahead.drop (p.run finish ahead).trace.tokens.length ∧
      (p.run finish ahead).trace.tokens.length ≤ ahead.length := by
  have h := p.conserves finish ahead
  have hlength := congrArg List.length h
  rw [List.length_append] at hlength
  have hdrop := congrArg (List.drop (p.run finish ahead).trace.tokens.length) h
  rw [List.drop_left] at hdrop
  exact ⟨hdrop, by omega⟩

/-- A clean run is simulated by a clean run. -/
theorem Simulates.reads {p p' : Parse α} (hp : Simulates φ shift p p') {ts rest : List Token}
    {a : α} (h : p.Reads finish ts rest a)
    (hshift : (ahead'.length : Int) = (ts ++ rest).length + shift)
    (hagree : Agree φ (ts.length + 1) finish finish' (ts ++ rest) ahead') :
    ∃ ts' rest' a', ahead' = ts' ++ rest' ∧ p'.Reads finish' ts' rest' a' ∧ Alike φ ts ts' ∧
      Alike φ a a' := by
  have hread : (p.run finish (ts ++ rest)).trace.tokens = ts := by
    rw [h, Trace.tokens_ofTokens]
  obtain ⟨hvalue, htrace⟩ := hp hshift (by rwa [hread])
  rw [h] at hvalue htrace
  cases ho : p'.run finish' ahead' with
  | mk value trace rest' =>
      rw [ho] at hvalue htrace
      cases value with
      | error e => exact absurd hvalue (by simp [Alike])
      | ok a' =>
          have herrors := congrArg Trace.errors htrace
          rw [Trace.errors_move, Trace.errors_move, Trace.errors_ofTokens] at herrors
          have htokens := congrArg Trace.tokens htrace
          rw [Trace.tokens_move, Trace.tokens_move, Trace.tokens_ofTokens] at htokens
          obtain ⟨hahead, hreads⟩ := reads_of_run ho (List.map_eq_nil_iff.1 herrors.symm)
          exact ⟨trace.tokens, rest', a', hahead, hreads, htokens, Except.ok.inj hvalue⟩

end

/-! ## Rules -/

section

variable {φ : Location → Location} {shift : Int}

theorem simulates_pure {a a' : α} (h : Alike φ a a') :
    Simulates φ shift (pure a) (pure a') :=
  fun _ _ _ _ _ _ => ⟨congrArg Except.ok h, rfl⟩

theorem alike_syntaxError {l l' : Location} (hl : φ l = φ l') (complaint : Complaint) :
    Alike φ (⟨l, complaint⟩ : SyntaxError) ⟨l', complaint⟩ := by
  rw [Alike, move_syntaxError, move_syntaxError, hl]

theorem simulates_fail {e e' : SyntaxError} (h : Alike φ e e') :
    Simulates φ shift (fail e : Parse α) (fail e') :=
  fun _ _ _ _ _ _ => ⟨congrArg Except.error h, rfl⟩

theorem simulates_report {e e' : SyntaxError} (h : Alike φ e e') :
    Simulates φ shift (report e) (report e') :=
  fun _ _ _ _ _ _ => ⟨rfl, congrArg (fun e => [Step.report e]) h⟩

theorem simulates_bind {p p' : Parse α} {f f' : α → Parse β} (hp : Simulates φ shift p p')
    (hf : ∀ a a', Alike φ a a' → Simulates φ shift (f a) (f' a')) :
    Simulates φ shift (p >>= f) (p' >>= f') := by
  intro finish finish' ahead ahead' hshift hagree
  obtain ⟨hrest, hle⟩ := rest_eq_drop p finish ahead
  obtain ⟨hrest', hle'⟩ := rest_eq_drop p' finish' ahead'
  have hfirst := fun hn => hp hshift (hagree.mono hn)
  rcases run_bind_cases p f finish ahead with
    ⟨e, trace, rest, hrun, hbind⟩ | ⟨a, trace, rest, hrun, hbind⟩
  · rw [hrun, hbind] at hfirst
    obtain ⟨hvalue, htrace⟩ := hfirst (Nat.le_refl _)
    rcases run_bind_cases p' f' finish' ahead' with
      ⟨e', trace', rest', hrun', hbind'⟩ | ⟨a', trace', rest', hrun', -⟩
    · rw [hrun'] at hvalue htrace
      rw [hbind, hbind']
      exact ⟨congrArg Except.error (Except.error.inj hvalue), htrace⟩
    · rw [hrun'] at hvalue
      exact absurd hvalue (by simp [Alike])
  · rw [hbind] at hagree hfirst
    rw [hrun] at hfirst hrest hle
    simp only [Trace.tokens_append, List.length_append] at hagree hfirst
    obtain ⟨hvalue, htrace⟩ := hfirst (by omega)
    rcases run_bind_cases p' f' finish' ahead' with
      ⟨e', trace', rest', hrun', -⟩ | ⟨a', trace', rest', hrun', hbind'⟩
    · rw [hrun'] at hvalue
      exact absurd hvalue (by simp [Alike])
    · rw [hrun'] at hvalue htrace hrest' hle'
      have hlength := length_tokens_of_alike htrace
      simp only at hrest hrest' hle hle' hlength htrace
      rw [← hlength] at hrest' hle'
      subst hrest hrest'
      have hshift' : ((ahead'.drop trace.tokens.length).length : Int) =
          (ahead.drop trace.tokens.length).length + shift := by
        rw [List.length_drop, List.length_drop]
        omega
      have hnext := hf a a' (Except.ok.inj hvalue) hshift'
        (Agree.drop (by rwa [← Nat.add_assoc]) hle)
      rw [hbind, hbind']
      refine ⟨hnext.1, ?_⟩
      simp only [Alike, move_append]
      rw [htrace, hnext.2]

theorem simulates_map {p p' : Parse α} {g g' : α → β} (hp : Simulates φ shift p p')
    (hg : ∀ a a', Alike φ a a' → Alike φ (g a) (g' a')) :
    Simulates φ shift (g <$> p) (g' <$> p') := by
  rw [map_eq_bind, map_eq_bind]
  exact simulates_bind hp fun a a' ha => simulates_pure (hg a a' ha)

theorem simulates_current_bind {f f' : Token → Parse β}
    (hf : ∀ x l l', φ l = φ l' → Simulates φ shift (f ⟨x, l⟩) (f' ⟨x, l'⟩)) :
    Simulates φ shift (current >>= f) (current >>= f') := by
  intro finish finish' ahead ahead' hshift hagree
  have hrun : ∀ (g : Token → Parse β) finish ahead, (current >>= g).run finish ahead =
      (g (frontOf finish ahead)).run finish ahead := fun _ _ _ => rfl
  rw [hrun] at hagree ⊢
  rw [hrun]
  rcases hagree.front with ⟨rfl, rfl, hends⟩ | ⟨x, l, l', rest, rest', rfl, rfl, hl⟩
  · exact hf _ _ _ hends hshift hagree
  · exact hf _ _ _ hl hshift hagree

theorem simulates_atEnd_bind {f f' : Bool → Parse β}
    (hf : ∀ done, Simulates φ shift (f done) (f' done)) :
    Simulates φ shift (atEnd >>= f) (atEnd >>= f') := by
  intro finish finish' ahead ahead' hshift hagree
  have hrun : ∀ (g : Bool → Parse β) finish ahead, (atEnd >>= g).run finish ahead =
      (g ahead.isEmpty).run finish ahead := fun _ _ _ => rfl
  rw [hrun] at hagree ⊢
  rw [hrun]
  rcases hagree.front with ⟨rfl, rfl, -⟩ | ⟨x, l, l', rest, rest', rfl, rfl, -⟩
  · exact hf _ hshift hagree
  · exact hf _ hshift hagree

theorem simulates_advance : Simulates φ shift advance advance := by
  intro finish finish' ahead ahead' hshift hagree
  rcases hagree.front with ⟨rfl, rfl, hends⟩ | ⟨x, l, l', rest, rest', rfl, rfl, hl⟩
  · exact ⟨congrArg (fun l => Except.ok (Token.endOfFile l)) hends, rfl⟩
  · exact ⟨congrArg (fun l => Except.ok (⟨x, l⟩ : Token)) hl,
      congrArg (fun l => [Step.read ⟨x, l⟩]) hl⟩

theorem simulates_token_bind {p p' : Parse Token} {f f' : Token → Parse β}
    (hp : Simulates φ shift p p')
    (hf : ∀ x l l', φ l = φ l' → Simulates φ shift (f ⟨x, l⟩) (f' ⟨x, l'⟩)) :
    Simulates φ shift (p >>= f) (p' >>= f') := by
  apply simulates_bind hp
  rintro ⟨x, l⟩ ⟨x', l'⟩ htoken
  rw [Alike, move_token, move_token, Token.mk.injEq] at htoken
  obtain ⟨rfl, hl⟩ := htoken
  exact hf x l l' hl

theorem simulates_advance_bind {f f' : Token → Parse β}
    (hf : ∀ x l l', φ l = φ l' → Simulates φ shift (f ⟨x, l⟩) (f' ⟨x, l'⟩)) :
    Simulates φ shift (advance >>= f) (advance >>= f') :=
  simulates_token_bind simulates_advance hf

omit [Relocatable β] [Relocatable γ] in
theorem simulates_ite (c : Prop) [Decidable c] {p p' q q' : Parse α} (hp : Simulates φ shift p p')
    (hq : Simulates φ shift q q') :
    Simulates φ shift (if c then p else q) (if c then p' else q') := by
  split
  · exact hp
  · exact hq

theorem simulates_attempt {p p' : Parse α} (hp : Simulates φ shift p p') :
    Simulates φ shift (attempt p) (attempt p') := by
  intro finish finish' ahead ahead' hshift hagree
  obtain ⟨hvalue, htrace⟩ := hp hshift hagree
  have hlength := length_tokens_of_alike htrace
  have hempty : (p.run finish ahead).trace.tokens.isEmpty =
      (p'.run finish' ahead').trace.tokens.isEmpty := by
    rw [Bool.eq_iff_iff, List.isEmpty_iff, List.isEmpty_iff, ← List.length_eq_zero_iff, hlength,
      List.length_eq_zero_iff]
  refine ⟨?_, htrace⟩
  show Alike φ (Except.ok ((p.run finish ahead).value, (p.run finish ahead).trace.tokens.isEmpty))
    (Except.ok ((p'.run finish' ahead').value, (p'.run finish' ahead').trace.tokens.isEmpty))
  rw [hempty, Alike, move_ok, move_ok]
  exact congrArg (fun v => Except.ok (v, _)) hvalue

theorem lexemes_of_alike {ts ts' : List Token} (h : Alike φ ts ts') :
    ts.map (·.toLexeme) = ts'.map (·.toLexeme) := by
  have hmap : ∀ us : List Token, (move φ us).map (·.toLexeme) = us.map (·.toLexeme) := by
    intro us
    exact List.map_map
  rw [← hmap ts, h, hmap]

theorem move_ofTokens (ts : List Token) :
    move φ (Trace.ofTokens ts) = Trace.ofTokens (move φ ts) := by
  induction ts with
  | nil => rfl
  | cons t ts ih => exact congrArg (Step.read (move φ t) :: ·) ih

/-- How many tokens to skip must show in these and the next. -/
theorem simulates_skip {count : List Token → Nat} (hle : ∀ ts, count ts ≤ ts.length)
    (hcount : ∀ ts ts' : List Token,
      (ts.take (count ts + 1)).map (·.toLexeme) = (ts'.take (count ts + 1)).map (·.toLexeme) →
      count ts' = count ts) :
    Simulates φ shift (skip count) (skip count) := by
  intro finish finish' ahead ahead' hshift hagree
  have hrun : ∀ finish ahead, (skip count).run finish ahead =
      ⟨.ok (), .ofTokens (ahead.take (count ahead)), ahead.drop (count ahead)⟩ := fun _ _ => rfl
  rw [hrun] at hagree ⊢
  rw [hrun]
  rw [Trace.tokens_ofTokens, List.length_take, Nat.min_eq_left (hle ahead)] at hagree
  have hsame := hcount ahead ahead' (lexemes_of_alike hagree.tokens)
  refine ⟨rfl, ?_⟩
  rw [Alike, move_ofTokens, move_ofTokens, hsame]
  exact congrArg Trace.ofTokens (hagree.mono (Nat.le_succ _)).tokens

theorem simulates_exhausted : Simulates φ shift (exhausted : Parse α) exhausted := by
  intro finish finish' ahead ahead' hshift hagree
  refine ⟨?_, rfl⟩
  rcases hagree.front with ⟨rfl, rfl, hends⟩ | ⟨x, l, l', rest, rest', rfl, rfl, hl⟩
  · exact congrArg (fun l => (Except.error ⟨l, .unexpectedEnd .endOfFile⟩ : Except SyntaxError α))
      hends
  · exact congrArg (fun l => (Except.error ⟨l, .unexpectedEnd x⟩ : Except SyntaxError α)) hl

theorem simulates_fix {body body' : (γ → Parse α) → γ → Parse α}
    (hbody : ∀ self self', (∀ b b', Alike φ b b' → Simulates φ shift (self b) (self' b')) →
      ∀ b b', Alike φ b b' → Simulates φ shift (body self b) (body' self' b'))
    {b b' : γ} (hb : Alike φ b b') : Simulates φ shift (fix body b) (fix body' b') := by
  intro finish finish' ahead ahead'
  induction hn : ahead.length using Nat.strongRecOn
      generalizing b b' finish finish' ahead ahead' with
  | ind n ih =>
      intro hshift hagree
      rw [fix_run] at hagree ⊢
      rw [fix_run]
      refine hbody _ _ ?_ b b' hb (hn ▸ hshift) hagree
      intro c c' hc finish₁ finish₂ ahead₁ ahead₂ hshift' hagree'
      by_cases hlt : ahead₁.length < ahead.length
      · rw [below_run hlt] at hagree' ⊢
        rw [below_run (by omega)]
        exact ih _ (hn ▸ hlt) hc rfl hshift' hagree'
      · rw [below_run_of_le (by omega)] at hagree' ⊢
        rw [below_run_of_le (by omega)]
        exact simulates_exhausted hshift' hagree'

/-! ## Asking for tokens -/

theorem simulates_check_bind {x : Terminal} {f f' : Bool → Parse β}
    (hf : ∀ answer, Simulates φ shift (f answer) (f' answer)) :
    Simulates φ shift (check x >>= f) (check x >>= f') := by
  refine simulates_bind ?_ ?_
  · exact simulates_current_bind fun _ _ _ _ => simulates_pure rfl
  · rintro answer _ rfl
    exact hf answer

theorem simulates_refuse (what : Expectation) :
    Simulates φ shift (refuse what : Parse α) (refuse what) := by
  refine simulates_bind (α := SyntaxError) ?_ fun _ _ he => simulates_fail he
  exact simulates_current_bind fun x l l' hl => simulates_pure (alike_syntaxError hl _)

theorem simulates_expect (x : Terminal) : Simulates φ shift (expect x) (expect x) := by
  refine simulates_check_bind fun answer => ?_
  cases answer with
  | true => exact simulates_advance
  | false => exact simulates_refuse _

theorem simulates_accept (x : Terminal) : Simulates φ shift (accept x) (accept x) := by
  refine simulates_check_bind fun answer => ?_
  cases answer with
  | true => exact simulates_advance_bind fun _ _ _ _ => simulates_pure rfl
  | false => exact simulates_pure rfl

theorem simulates_expectKind (k : TokenKind) :
    Simulates φ shift (expectKind k) (expectKind k) := by
  refine simulates_current_bind fun x l l' hl => ?_
  split
  · exact simulates_advance
  · exact simulates_refuse _

theorem simulates_identifier : Simulates φ shift identifier identifier := by
  apply simulates_map (simulates_expectKind _)
  rintro ⟨x, l⟩ ⟨x', l'⟩ htoken
  rw [Alike, move_token, move_token, Token.mk.injEq] at htoken
  exact congrArg Lexeme.text htoken.1

theorem simulates_same_bind {σ : Type} [Relocatable σ] (hσ : ∀ a : σ, move φ a = a)
    {p p' : Parse σ} {f f' : σ → Parse β} (hp : Simulates φ shift p p')
    (hf : ∀ a, Simulates φ shift (f a) (f' a)) : Simulates φ shift (p >>= f) (p' >>= f') := by
  apply simulates_bind hp
  intro a a' ha
  rw [Alike, hσ, hσ] at ha
  exact ha ▸ hf a

theorem simulates_commaSeparated {item item' : Parse α} (h : Simulates φ shift item item') :
    Simulates φ shift (commaSeparated item) (commaSeparated item') := by
  refine simulates_fix (γ := Unit) (fun self self' hself _ _ _ => ?_) rfl
  refine simulates_bind h fun first first' hfirst => ?_
  refine simulates_same_bind (fun _ => rfl) (simulates_accept _) fun more => ?_
  cases more with
  | true =>
      refine simulates_map (hself () () rfl) fun others others' hothers => ?_
      rw [Alike, move_cons, move_cons, hfirst, hothers]
  | false => exact simulates_pure (congrArg (fun a => [a]) hfirst)

/-! ## Lists -/

theorem simulates_resume {count : List Token → Nat}
    (hcount : Simulates φ shift (skip count) (skip count)) (stalled : Bool) :
    Simulates φ shift (resume count stalled) (resume count stalled) := by
  cases stalled with
  | true => exact simulates_advance_bind fun _ _ _ _ => hcount
  | false => exact hcount

theorem simulates_recovering {count : List Token → Nat}
    (hcount : Simulates φ shift (skip count) (skip count)) {item item' : Parse (Option α)}
    (h : Simulates φ shift item item') :
    Simulates φ shift (recovering count item) (recovering count item') := by
  apply simulates_bind (simulates_attempt h)
  rintro ⟨result, stalled⟩ ⟨result', stalled'⟩ heq
  obtain ⟨hresult, hstalled⟩ := Prod.mk.inj heq
  obtain rfl : stalled = stalled' := hstalled
  cases result with
  | ok found =>
      cases result' with
      | ok found' => exact simulates_pure (Except.ok.inj hresult)
      | error e' => exact absurd hresult (by simp)
  | error e =>
      cases result' with
      | ok found' => exact absurd hresult (by simp)
      | error e' =>
          refine simulates_bind (simulates_report (Except.error.inj hresult)) fun _ _ _ => ?_
          exact simulates_bind (simulates_resume hcount stalled) fun _ _ _ => simulates_pure rfl

theorem simulates_items {stops : Token → Bool} (hstops : ∀ x l l', stops ⟨x, l⟩ = stops ⟨x, l'⟩)
    {count : List Token → Nat} (hcount : Simulates φ shift (skip count) (skip count))
    {item item' : Parse (Option α)} (h : Simulates φ shift item item') :
    Simulates φ shift (items stops count item) (items stops count item') := by
  refine simulates_fix (γ := Unit) (fun self self' hself _ _ _ => ?_) rfl
  refine simulates_atEnd_bind fun done => simulates_current_bind fun x l l' _ => ?_
  rw [hstops x l l']
  split
  · exact simulates_pure rfl
  · refine simulates_bind (simulates_recovering hcount h) fun found found' hfound => ?_
    refine simulates_map (hself () () rfl) fun others others' hothers => ?_
    rw [Alike, move_append, move_append, move_toList, move_toList, hfound, hothers]

theorem simulates_keep {wanted : NodeKind} {node node' : Node} (h : Alike φ node node') :
    Simulates φ shift (keep wanted node) (keep wanted node') := by
  have hkind : node.kind = node'.kind := by
    rw [← Node.kind_relocate φ node, ← Node.kind_relocate φ node']
    exact congrArg Node.kind h
  have hlocation : φ node.location = φ node'.location := by
    rw [← Node.location_relocate φ node, ← Node.location_relocate φ node']
    exact congrArg Node.location h
  unfold keep
  rw [hkind]
  split
  · exact simulates_pure (congrArg some h)
  · refine simulates_bind (simulates_report ?_) fun _ _ _ => simulates_pure rfl
    exact alike_syntaxError hlocation _

omit [Relocatable α] [Relocatable β] [Relocatable γ] in
theorem toStatement_le (ts : List Token) : toStatement ts ≤ ts.length := by
  induction ts with
  | nil => exact Nat.le_refl 0
  | cons t rest ih => grind [toStatement]

theorem cons_of_lexemes {n : Nat} {t : Token} {rest ts' : List Token}
    (h : ((t :: rest).take (n + 1)).map (·.toLexeme) = (ts'.take (n + 1)).map (·.toLexeme)) :
    ∃ l rest', ts' = ⟨t.toLexeme, l⟩ :: rest' ∧
      (rest.take n).map (·.toLexeme) = (rest'.take n).map (·.toLexeme) := by
  cases ts' with
  | nil => simp at h
  | cons t' rest' =>
      simp only [List.take_succ_cons, List.map_cons, List.cons.injEq] at h
      exact ⟨t'.location, rest', by rw [h.1], h.2⟩

theorem toStatement_congr (ts ts' : List Token)
    (h : (ts.take (toStatement ts + 1)).map (·.toLexeme) =
      (ts'.take (toStatement ts + 1)).map (·.toLexeme)) : toStatement ts' = toStatement ts := by
  induction ts generalizing ts' with
  | nil =>
      cases ts' with
      | nil => rfl
      | cons t' rest' => simp [toStatement] at h
  | cons t rest ih =>
      obtain ⟨l, rest', rfl, hrest⟩ := cons_of_lexemes h
      have hbegins : beginsStatement ⟨t.toLexeme, l⟩ = beginsStatement t := rfl
      simp only [toStatement] at hrest ⊢
      rw [hbegins]
      split
      · rfl
      · split
        · rfl
        · split
          · rfl
          · next hbrace hsemicolon hbegin =>
            rw [if_neg hbrace, if_neg hsemicolon, if_neg hbegin] at hrest
            rw [ih rest' hrest]

theorem simulates_toStatement : Simulates φ shift (skip toStatement) (skip toStatement) :=
  simulates_skip toStatement_le toStatement_congr

theorem toMember_le (depth : Nat) (ts : List Token) : toMember depth ts ≤ ts.length := by
  induction ts generalizing depth with
  | nil => exact Nat.le_refl 0
  | cons t rest ih => grind [toMember]

theorem toMember_congr (depth : Nat) (ts ts' : List Token)
    (h : (ts.take (toMember depth ts + 1)).map (·.toLexeme) =
      (ts'.take (toMember depth ts + 1)).map (·.toLexeme)) :
    toMember depth ts' = toMember depth ts := by
  induction ts generalizing depth ts' with
  | nil =>
      cases ts' with
      | nil => rfl
      | cons t' rest' => simp [toMember] at h
  | cons t rest ih =>
      obtain ⟨l, rest', rfl, hrest⟩ := cons_of_lexemes h
      simp only [toMember] at hrest ⊢
      split
      · rfl
      · next hstop =>
        rw [if_neg hstop] at hrest
        split
        · next hopen => rw [if_pos hopen] at hrest; rw [ih _ rest' hrest]
        · next hopen =>
          rw [if_neg hopen] at hrest
          split
          · next hclose => rw [if_pos hclose] at hrest; rw [ih _ rest' hrest]
          · next hclose => rw [if_neg hclose] at hrest; rw [ih _ rest' hrest]

theorem simulates_toMember : Simulates φ shift (skip (toMember 0)) (skip (toMember 0)) :=
  simulates_skip (toMember_le 0) (toMember_congr 0)

end

end MiniJava.Grammar
