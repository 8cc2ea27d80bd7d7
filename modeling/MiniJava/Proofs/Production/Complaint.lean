import MiniJava.Proofs.Production.Result
/-!
# Where productions complain

An error is about the token at which reading has stopped: it has its place and names its word.
The one exception is a node that is read in full and then dropped for its kind, which is
reported at a token read since the last such node.  There is one rule for each way of building
productions.
-/

namespace MiniJava

def Lexeme.IsStrayKeyword (x : Lexeme) : Prop :=
  x.kind = .keyword ∧ x.terminal ∉ [.thisKeyword, .newKeyword, .lengthKeyword]

def Token.Met (t : Token) : Prop := t.WellFormed ∨ t.toLexeme = .endOfFile

namespace Grammar

open Parse

variable {α β γ : Type}

def Complaint.About (x : Lexeme) : Complaint → Prop
  | .emptyFile => x = .endOfFile
  | .expected _ found | .noExpression found | .unexpectedEnd found => found = x
  | .unsupported (.inExpression found) => found = x ∧ x.IsStrayKeyword
  | .unsupported _ | .wrongNode .. => False

def SyntaxError.About (e : SyntaxError) (t : Token) : Prop :=
  e.location = t.location ∧ e.complaint.About t.toLexeme

theorem SyntaxError.About.eq_inExpression {e : SyntaxError} {t : Token} (h : e.About t)
    (he : e.isUnsupported = true) :
    t.IsStrayKeyword ∧ e = ⟨t.location, .unsupported (.inExpression t.toLexeme)⟩ := by
  obtain ⟨l, complaint⟩ := e
  obtain ⟨rfl, hcomplaint⟩ : l = t.location ∧ complaint.About t.toLexeme := h
  cases complaint with
  | unsupported construct =>
      cases construct with
      | inExpression found =>
          obtain ⟨rfl, hstray⟩ := hcomplaint
          exact ⟨hstray, rfl⟩
      | _ => exact hcomplaint.elim
  | _ => exact absurd he Bool.noConfusion

def SyntaxError.Drops (e : SyntaxError) (since : List Token) : Prop :=
  (∃ wanted found, e.complaint = .wrongNode wanted found) ∧ ∃ t ∈ since, e.location = t.location

theorem SyntaxError.Drops.mono {e : SyntaxError} {since more : List Token} (h : e.Drops since)
    (hmore : since ⊆ more) : e.Drops more := by
  obtain ⟨hcomplaint, t, ht, hplace⟩ := h
  exact ⟨hcomplaint, t, hmore ht, hplace⟩

/-- The errors reported along a trace are each about the token at the front, or drop a node with
its place from the tokens read since the last one dropped.  Whether nodes may be dropped at all
is given. -/
inductive Placed (drops : Prop) (finish : Location) (rest : List Token) :
    List Token → Trace → Prop
  | nil {since} : Placed drops finish rest since []
  | read {since t s} : Placed drops finish rest (t :: since) s →
      Placed drops finish rest since (.read t :: s)
  | complain {since e s} : e.About (frontOf finish (Trace.tokens s ++ rest)) →
      Placed drops finish rest since s → Placed drops finish rest since (.report e :: s)
  | drop {since e s} : drops → e.Drops since → Placed drops finish rest [] s →
      Placed drops finish rest since (.report e :: s)

namespace Placed

variable {drops : Prop} {finish : Location} {rest since : List Token} {s u : Trace}

theorem mono (h : Placed drops finish rest since s) {more : List Token} (hmore : since ⊆ more) :
    Placed drops finish rest more s := by
  induction h generalizing more with
  | nil => exact .nil
  | read _ ih => exact .read (ih (List.cons_subset_cons _ hmore))
  | complain habout _ ih => exact .complain habout (ih hmore)
  | drop hdrops he hs _ => exact .drop hdrops (he.mono hmore) hs

theorem append (h : Placed drops finish (u.tokens ++ rest) since s)
    (hu : Placed drops finish rest [] u) : Placed drops finish rest since (s ++ u) := by
  induction h with
  | nil => exact hu.mono (List.nil_subset _)
  | read _ ih => exact .read ih
  | @complain since e s habout _ ih =>
      refine Placed.complain (s := s ++ u) ?_ ih
      rwa [Trace.tokens_append, List.append_assoc]
  | drop hdrops he _ ih => exact .drop hdrops he ih

theorem append_drop (h : Placed False finish rest since s) {e : SyntaxError}
    (he : e.Drops (s.tokens ++ since)) : Placed True finish rest since (s ++ [.report e]) := by
  induction h with
  | nil => exact .drop trivial he .nil
  | @read since t s _ ih =>
      refine .read (ih (he.mono fun u hu => ?_))
      simp only [Trace.tokens_read, List.cons_append, List.mem_cons, List.mem_append] at hu ⊢
      exact or_left_comm.1 hu
  | @complain since _ s habout _ ih =>
      refine Placed.complain (s := s ++ [.report e]) ?_ (ih he)
      rwa [Trace.tokens_append, Trace.tokens_report, Trace.tokens_nil, List.append_nil]
  | drop hdrops => exact hdrops.elim

theorem ofTokens (ts : List Token) : Placed drops finish rest since (.ofTokens ts) := by
  induction ts generalizing since with
  | nil => exact .nil
  | cons t ts ih => exact .read ih

/-- An error that is reported is about a token that was met, or drops a node with its place from
one that was read. -/
theorem about_or_drops (h : Placed drops finish rest since s) :
    ∀ e ∈ s.errors, (∃ ahead, ahead <:+ s.tokens ++ rest ∧ e.About (frontOf finish ahead)) ∨
      e.Drops (s.tokens ++ since) := by
  induction h with
  | nil => exact List.forall_mem_nil _
  | @read since t s _ ih =>
      intro e he
      rcases ih e he with ⟨ahead, hahead, habout⟩ | hdrops
      · exact .inl ⟨ahead, hahead.trans (List.suffix_cons _ _), habout⟩
      · right
        refine hdrops.mono fun u hu => ?_
        simp only [Trace.tokens_read, List.cons_append, List.mem_cons, List.mem_append] at hu ⊢
        exact or_left_comm.1 hu
  | complain habout _ ih =>
      exact List.forall_mem_cons.2 ⟨.inl ⟨_, List.suffix_refl _, habout⟩, ih⟩
  | @drop since e s _ he _ ih =>
      refine List.forall_mem_cons.2 ⟨.inr (he.mono (List.subset_append_right _ _)), ?_⟩
      refine fun e' he' => (ih e' he').imp_right fun hdrops => hdrops.mono ?_
      rw [List.append_nil]
      exact List.subset_append_left _ _

/-- An error about a word that no production has a use for is about a token that was met. -/
theorem about_of_isUnsupported (h : Placed drops finish rest since s) :
    ∀ e ∈ s.errors, e.isUnsupported = true →
      ∃ ahead, ahead <:+ s.tokens ++ rest ∧ e.About (frontOf finish ahead) := by
  intro e he hunsupported
  rcases h.about_or_drops e he with habout | ⟨⟨wanted, found, hcomplaint⟩, -⟩
  · exact habout
  · rw [SyntaxError.isUnsupported, hcomplaint] at hunsupported
    exact absurd hunsupported Bool.noConfusion

end Placed

/-- With a given token at the front of well-formed ones, the error that a production ends with is
about the token it stopped at, and those it reports are placed. -/
def ComplainsAt (drops : Prop) (front : Token) (p : Parse α) : Prop :=
  ∀ ⦃finish ahead⦄, (∀ t ∈ ahead, t.WellFormed) → frontOf finish ahead = front →
    (∀ e, (p.run finish ahead).value = .error e →
      e.About (frontOf finish (p.run finish ahead).rest)) ∧
    Placed drops finish (p.run finish ahead).rest [] (p.run finish ahead).trace

def Complains (drops : Prop) (p : Parse α) : Prop := ∀ front, ComplainsAt drops front p

def Outcome.errors (o : Outcome α) : List SyntaxError :=
  o.trace.errors ++ match o.value with
    | .ok _ => []
    | .error e => [e]

theorem Complains.about_of_isUnsupported {drops : Prop} {p : Parse α} (h : Complains drops p)
    {finish : Location} {ahead : List Token} (hwf : ∀ t ∈ ahead, t.WellFormed) :
    ∀ e ∈ (p.run finish ahead).errors, e.isUnsupported = true →
      ∃ later, later <:+ ahead ∧ e.About (frontOf finish later) := by
  obtain ⟨herror, hplaced⟩ := h (frontOf finish ahead) hwf rfl
  have hreported := hplaced.about_of_isUnsupported
  rw [p.conserves] at hreported
  refine List.forall_mem_append.2 ⟨hreported, ?_⟩
  cases hvalue : (p.run finish ahead).value with
  | ok a => exact List.forall_mem_nil _
  | error e =>
      refine List.forall_mem_singleton.2 fun _ => ⟨_, ?_, herror e hvalue⟩
      exact ⟨_, p.conserves finish ahead⟩

/-! ## Rules -/

section

variable {drops : Prop} {front t : Token} {p : Parse α} {f : α → Parse β}

theorem met_frontOf {finish : Location} {ahead : List Token} (h : ∀ t ∈ ahead, t.WellFormed) :
    (frontOf finish ahead).Met := by
  cases ahead with
  | nil => exact .inr rfl
  | cons t rest => exact .inl (h t (List.mem_cons_self ..))

/-- Only a token that can be met need be considered. -/
theorem complainsAt_of_met (h : front.Met → ComplainsAt drops front p) :
    ComplainsAt drops front p := by
  rintro finish ahead hwf rfl
  exact h (met_frontOf hwf) hwf rfl

theorem complains_pure (a : α) : Complains drops (pure a) :=
  fun _ _ _ _ _ => ⟨fun _ he => absurd he nofun, .nil⟩

theorem complainsAt_fail {e : SyntaxError} (h : e.About front) :
    ComplainsAt drops front (fail e : Parse α) := by
  rintro finish ahead _ rfl
  refine ⟨fun e' he => ?_, .nil⟩
  obtain rfl := Except.error.inj he
  exact h

theorem complains_refuse (what : Expectation) : Complains drops (refuse what : Parse α) := by
  intro front finish ahead _ _
  refine ⟨fun e he => ?_, .nil⟩
  obtain rfl := Except.error.inj he
  exact ⟨rfl, rfl⟩

theorem complainsAt_bind_of_ensures {wanted : α → Prop} (hp : ComplainsAt drops front p)
    (hwanted : EnsuresAt front p fun a _ => wanted a)
    (hf : ∀ a, wanted a → Complains drops (f a)) : ComplainsAt drops front (p >>= f) := by
  intro finish ahead hwf hfront
  have hfirst := hp hwf hfront
  have hvalue := fun a => hwanted (a := a) hfront
  have hrest : ∀ t ∈ (p.run finish ahead).rest, t.WellFormed :=
    fun t ht => hwf t (mem_ahead_of_mem_rest p finish ht)
  rcases run_bind_cases p f finish ahead with
    ⟨e, trace, rest, hrun, hbind⟩ | ⟨a, trace, rest, hrun, hbind⟩
  · rw [hrun] at hfirst
    rw [hbind]
    exact ⟨fun e' he => hfirst.1 e' (congrArg Except.error (Except.error.inj he)), hfirst.2⟩
  · rw [hrun] at hfirst hvalue hrest
    rw [hbind]
    obtain ⟨herror, hplaced⟩ := hf a (hvalue a rfl) _ hrest rfl
    refine ⟨herror, Placed.append ?_ hplaced⟩
    rw [(f a).conserves finish rest]
    exact hfirst.2

theorem complainsAt_bind (hp : ComplainsAt drops front p) (hf : ∀ a, Complains drops (f a)) :
    ComplainsAt drops front (p >>= f) :=
  complainsAt_bind_of_ensures hp (ensures_any p front) fun a _ => hf a

theorem complains_bind (hp : Complains drops p) (hf : ∀ a, Complains drops (f a)) :
    Complains drops (p >>= f) :=
  fun front => complainsAt_bind (hp front) hf

theorem complainsAt_map {g : α → β} (hp : ComplainsAt drops front p) :
    ComplainsAt drops front (g <$> p) := by
  rw [map_eq_bind]
  exact complainsAt_bind hp fun a => complains_pure (g a)

theorem complains_map {g : α → β} (hp : Complains drops p) : Complains drops (g <$> p) :=
  fun front => complainsAt_map (hp front)

theorem complains_current_bind {f : Token → Parse β} (h : ∀ t, ComplainsAt drops t (f t)) :
    Complains drops (current >>= f) :=
  fun _ _ _ hwf _ => h _ hwf rfl

theorem complains_atEnd_bind {f : Bool → Parse β} (h : ∀ done, Complains drops (f done)) :
    Complains drops (atEnd >>= f) :=
  fun front _ _ hwf hfront => h _ front hwf hfront

theorem complainsAt_check_bind {x : Terminal} {f : Bool → Parse β}
    (h : ∀ found, ComplainsAt drops front (f found)) : ComplainsAt drops front (check x >>= f) :=
  fun _ _ hwf hfront => h _ hwf hfront

/-- What is read is the token that was looked at, even at the end. -/
theorem complainsAt_advance_bind {f : Token → Parse β} (h : Complains drops (f front)) :
    ComplainsAt drops front (advance >>= f) := by
  have hadvance : ComplainsAt drops front (advance >>= fun _ => f front) := by
    refine complainsAt_bind ?_ fun _ => h
    intro finish ahead _ _
    cases ahead with
    | nil => exact ⟨fun _ he => absurd he nofun, .nil⟩
    | cons t rest => exact ⟨fun _ he => absurd he nofun, .read .nil⟩
  intro finish ahead hwf hfront
  have hrun : (advance >>= f).run finish ahead =
      (advance >>= fun _ => f front).run finish ahead := by
    subst hfront
    cases ahead <;> rfl
  rw [hrun]
  exact hadvance hwf hfront

theorem complains_advance_bind {f : Token → Parse β} (h : ∀ t, Complains drops (f t)) :
    Complains drops (advance >>= f) :=
  fun front => complainsAt_advance_bind (h front)

theorem complains_advance : Complains drops advance := by
  rw [← bind_pure advance]
  exact complains_advance_bind complains_pure

theorem complains_expect (x : Terminal) : Complains drops (expect x) := by
  refine fun front => complainsAt_check_bind fun found => ?_
  split
  · exact complains_advance front
  · exact complains_refuse _ front

theorem complains_accept (x : Terminal) : Complains drops (accept x) := by
  refine fun front => complainsAt_check_bind fun found => ?_
  split
  · exact complains_advance_bind (fun _ => complains_pure _) front
  · exact complains_pure _ front

theorem complains_expectKind (k : TokenKind) : Complains drops (expectKind k) := by
  refine complains_current_bind fun t => ?_
  split
  · exact complains_advance t
  · exact complains_refuse _ t

theorem complains_identifier : Complains drops identifier :=
  complains_map (complains_expectKind _)

theorem complains_fix {body : (γ → Parse α) → γ → Parse α}
    (h : ∀ self, (∀ c, Complains drops (self c)) → ∀ c, Complains drops (body self c)) (c : γ) :
    Complains drops (fix body c) := by
  intro front finish ahead
  induction hn : ahead.length using Nat.strongRecOn generalizing c front finish ahead with
  | ind n ih =>
      intro hwf hfront
      rw [fix_run]
      refine h _ ?_ c front hwf hfront
      intro c' front' finish' ahead' hwf' hfront'
      by_cases hlt : ahead'.length < ahead.length
      · rw [below_run hlt]
        exact ih _ (hn ▸ hlt) c' front' rfl hwf' hfront'
      · rw [below_run_of_le (Nat.not_lt.1 hlt)]
        refine ⟨fun e he => ?_, .nil⟩
        obtain rfl := Except.error.inj he
        exact ⟨rfl, rfl⟩

theorem complains_commaSeparated {item : Parse α} (h : Complains drops item) :
    Complains drops (commaSeparated item) := by
  refine complains_fix (fun self hself _ => complains_bind h fun first => ?_) ()
  refine complains_bind (complains_accept _) fun more => ?_
  split
  · exact complains_map (hself ())
  · exact complains_pure _

theorem complains_report_unexpected (what : Expectation) (a : α) :
    Complains drops (unexpected what >>= fun e => report e >>= fun _ => pure a) :=
  fun _ _ _ _ _ => ⟨fun _ he => absurd he nofun, .complain ⟨rfl, rfl⟩ .nil⟩

end

/-! ## Lists -/

section

variable {drops : Prop} {stops : Token → Bool} {count : List Token → Nat}

/-- A failure is reported where the item stopped, before anything is skipped. -/
theorem complains_recovering {item : Parse (Option α)} (h : Complains drops item) :
    Complains drops (recovering count item) := by
  intro front finish ahead hwf hfront
  obtain ⟨herror, hplaced⟩ := h front hwf hfront
  cases ho : item.run finish ahead with
  | mk value trace rest =>
      rw [ho] at herror hplaced
      cases value with
      | ok found =>
          rw [recovering_run_ok ho]
          exact ⟨fun _ he => absurd he nofun, hplaced⟩
      | error e =>
          rw [recovering_run_error ho]
          refine ⟨fun _ he => absurd he nofun, ?_⟩
          have habout : e.About (frontOf finish rest) := herror e rfl
          refine Placed.append ?_ (.complain ?_ (.ofTokens _))
          · rwa [Trace.tokens_report, Trace.tokens_ofTokens, List.take_append_drop]
          · rwa [Trace.tokens_ofTokens, List.take_append_drop]

theorem complains_items {item : Parse (Option α)} (h : Complains drops item) :
    Complains drops (items stops count item) := by
  refine complains_fix (fun self hself _ => ?_) ()
  refine complains_atEnd_bind fun done => complains_current_bind fun t => ?_
  split
  · exact complains_pure _ t
  · exact complainsAt_bind (complains_recovering h t) fun found => complains_map (hself ())

theorem complains_bind_kept {wanted : NodeKind} {p : Parse Node}
    (hp : Complains drops p) (hkind : Ensures p fun n _ => n.kind = wanted) :
    Complains drops (p >>= keep wanted) := by
  refine fun front => complainsAt_bind_of_ensures (hp front) (hkind front) fun n hn => ?_
  rw [keep, if_pos hn]
  exact complains_pure _

theorem complains_bind_keep {wanted : NodeKind} {p : Parse Node}
    (hp : ∀ drops, Complains drops p)
    (hplace : Ensures p fun n s => ∃ t ∈ Trace.tokens s, n.location = t.location) :
    Complains True (p >>= keep wanted) := by
  intro front finish ahead hwf hfront
  obtain ⟨herror, hplaced⟩ := hp True front hwf hfront
  have hundropped := (hp False front hwf hfront).2
  have hlocation := fun n => hplace front (a := n) hfront
  rcases run_bind_cases p (keep wanted) finish ahead with
    ⟨e, trace, rest, hrun, hbind⟩ | ⟨n, trace, rest, hrun, hbind⟩
  · rw [hrun] at herror hplaced
    rw [hbind]
    exact ⟨fun e' he => herror e' (congrArg Except.error (Except.error.inj he)), hplaced⟩
  · rw [hrun] at hplaced hundropped hlocation
    rw [hbind, keep]
    split
    · refine ⟨fun _ he => (by cases he), ?_⟩
      show Placed True finish rest [] (trace ++ [])
      rwa [List.append_nil]
    · refine ⟨fun _ he => (by cases he), hundropped.append_drop ⟨⟨_, _, rfl⟩, ?_⟩⟩
      rw [List.append_nil]
      exact hlocation n rfl

end

end Grammar

end MiniJava
