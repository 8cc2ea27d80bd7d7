import MiniJava.Proofs.Production.Consumption
/-!
# What productions yield

What can be said of the value that a production yields and of the trace that leads to it, errors
reported on the way included.  There is one rule for each way of building productions.
-/

namespace MiniJava.Grammar

open Parse

variable {α β γ : Type}

/-- With a given token at the front, a value that is yielded and the trace that leads to it
are related. -/
def EnsuresAt (front : Token) (p : Parse α) (related : α → Trace → Prop) : Prop :=
  ∀ ⦃finish ahead a⦄, frontOf finish ahead = front → (p.run finish ahead).value = .ok a →
    related a (p.run finish ahead).trace

def Ensures (p : Parse α) (related : α → Trace → Prop) : Prop :=
  ∀ front, EnsuresAt front p related

section

variable {front t : Token} {p : Parse α} {f : α → Parse β} {related : β → Trace → Prop}

theorem Ensures.mono {first weaker : α → Trace → Prop} (h : Ensures p first)
    (hweaker : ∀ a s, first a s → weaker a s) : Ensures p weaker :=
  fun front _ _ _ hfront ha => hweaker _ _ (h front hfront ha)

theorem ensures_any (p : Parse α) : Ensures p fun _ _ => True :=
  fun _ _ _ _ _ _ => trivial

theorem ensures_pure {b : β} (h : related b []) : Ensures (pure b) related := by
  intro front finish ahead b' _ hb
  obtain rfl := Except.ok.inj hb
  exact h

theorem ensures_fail {e : SyntaxError} : Ensures (fail e) related := by
  intro front finish ahead b _ hb
  exact absurd hb (by simp [fail])

theorem ensures_refuse {what : Expectation} : Ensures (refuse what) related := by
  intro front finish ahead b _ hb
  have hrun : ((refuse what : Parse β).run finish ahead).value =
      .error ⟨(frontOf finish ahead).location, .expected what (frontOf finish ahead).toLexeme⟩ :=
    rfl
  rw [hrun] at hb
  exact absurd hb (by simp)

theorem ensuresAt_bind {first : α → Trace → Prop} (hp : EnsuresAt front p first)
    (hf : ∀ a s, first a s → Ensures (f a) fun b u => related b (s ++ u)) :
    EnsuresAt front (p >>= f) related := by
  intro finish ahead b hfront hb
  have hfirst : ∀ {a}, (p.run finish ahead).value = .ok a → first a (p.run finish ahead).trace :=
    fun ha => hp hfront ha
  rcases run_bind_cases p f finish ahead with
    ⟨e, s, rest, -, hbind⟩ | ⟨a, s, rest, hrun, hbind⟩
  · rw [hbind] at hb
    exact absurd hb (by simp)
  · rw [hbind] at hb ⊢
    rw [hrun] at hfirst
    exact hf a s (hfirst rfl) _ rfl hb

theorem ensures_bind {first : α → Trace → Prop} (hp : Ensures p first)
    (hf : ∀ a s, first a s → Ensures (f a) fun b u => related b (s ++ u)) :
    Ensures (p >>= f) related :=
  fun front => ensuresAt_bind (hp front) hf

theorem ensuresAt_map {g : α → β} (h : EnsuresAt front p fun a s => related (g a) s) :
    EnsuresAt front (g <$> p) related := by
  rw [map_eq_bind]
  refine ensuresAt_bind h fun a s ha => ensures_pure ?_
  rwa [List.append_nil]

theorem ensures_map {g : α → β} (h : Ensures p fun a s => related (g a) s) :
    Ensures (g <$> p) related :=
  fun front => ensuresAt_map (h front)

theorem ensuresAt_current_bind {f : Token → Parse β} (h : EnsuresAt t (f t) related) :
    EnsuresAt t (current >>= f) related := by
  rintro finish ahead b rfl hb
  exact h rfl hb

theorem ensures_current_bind {f : Token → Parse β} (h : ∀ t, EnsuresAt t (f t) related) :
    Ensures (current >>= f) related :=
  fun t => ensuresAt_current_bind (h t)

theorem ensures_atEnd_bind {f : Bool → Parse β} (h : ∀ done, Ensures (f done) related) :
    Ensures (atEnd >>= f) related :=
  fun front _ _ _ hfront hb => h _ front hfront hb

theorem ensures_report_bind {e : SyntaxError} {f : Unit → Parse β}
    (h : Ensures (f ()) fun b s => related b (.report e :: s)) :
    Ensures (report e >>= f) related := by
  have hreport : Ensures (report e) fun _ s => s = [.report e] := fun _ _ _ _ _ _ => rfl
  refine ensures_bind hreport ?_
  rintro _ _ rfl
  exact h

theorem ensuresAt_advance_bind {f : Token → Parse β} (hend : ∀ l, t ≠ .endOfFile l)
    (h : Ensures (f t) fun b s => related b (.read t :: s)) :
    EnsuresAt t (advance >>= f) related := by
  have hadvance : EnsuresAt t advance fun u s => u = t ∧ s = [.read t] := by
    intro finish ahead u hfront hu
    cases ahead with
    | nil => exact absurd hfront.symm (hend finish)
    | cons v rest =>
        obtain rfl : v = t := hfront
        exact ⟨(Except.ok.inj hu).symm, rfl⟩
  refine ensuresAt_bind hadvance ?_
  rintro _ _ ⟨rfl, rfl⟩
  exact h

theorem ensuresAt_advance {related : Token → Trace → Prop} (hend : ∀ l, t ≠ .endOfFile l)
    (h : related t [.read t]) : EnsuresAt t advance related := by
  rw [← bind_pure advance]
  exact ensuresAt_advance_bind hend (ensures_pure h)

theorem ensuresAt_check_bind {x : Terminal} {f : Bool → Parse β}
    (htrue : front.terminal = x → EnsuresAt front (f true) related)
    (hfalse : front.terminal ≠ x → EnsuresAt front (f false) related) :
    EnsuresAt front (check x >>= f) related := by
  rintro finish ahead b rfl hb
  have hrun : (check x >>= f).run finish ahead =
      (f ((frontOf finish ahead).terminal == x)).run finish ahead := rfl
  rw [hrun] at hb ⊢
  by_cases hx : (frontOf finish ahead).terminal = x
  · rw [hx, beq_self_eq_true] at hb ⊢
    exact htrue hx rfl hb
  · rw [beq_eq_false_iff_ne.2 hx] at hb ⊢
    exact hfalse hx rfl hb

theorem ensures_expect {x : Terminal} (hx : x ≠ .unreserved) :
    Ensures (expect x) fun t s => t.terminal = x ∧ s = [.read t] := by
  intro front
  refine ensuresAt_check_bind (fun hfront => ensuresAt_advance ?_ ⟨hfront, rfl⟩)
    fun _ => ensures_refuse front
  rintro l rfl
  exact hx hfront.symm

theorem ensures_expect_bind {x : Terminal} {f : Token → Parse β} (hx : x ≠ .unreserved)
    (h : ∀ t, t.terminal = x → Ensures (f t) fun b s => related b (.read t :: s)) :
    Ensures (expect x >>= f) related := by
  refine ensures_bind (ensures_expect hx) ?_
  rintro t _ ⟨ht, rfl⟩
  exact h t ht

theorem ensures_expectKind {k : TokenKind} (hk : k ≠ .endOfFile) :
    Ensures (expectKind k) fun t s => t.kind = k ∧ s = [.read t] := by
  refine ensures_current_bind fun t => ?_
  split
  · next ht =>
    refine ensuresAt_advance ?_ ⟨ht, rfl⟩
    rintro l rfl
    exact hk ht.symm
  · exact ensures_refuse t

theorem ensures_expectKind_bind {k : TokenKind} {f : Token → Parse β} (hk : k ≠ .endOfFile)
    (h : ∀ t, t.kind = k → Ensures (f t) fun b s => related b (.read t :: s)) :
    Ensures (expectKind k >>= f) related := by
  refine ensures_bind (ensures_expectKind hk) ?_
  rintro t _ ⟨ht, rfl⟩
  exact h t ht

theorem ensures_identifier_bind {f : String → Parse β}
    (h : ∀ t : Token, t.kind = .identifier →
      Ensures (f t.text) fun b s => related b (.read t :: s)) :
    Ensures (identifier >>= f) related := by
  have hidentifier : Ensures identifier fun name s =>
      ∃ t : Token, t.kind = .identifier ∧ name = t.text ∧ s = [.read t] :=
    ensures_map ((ensures_expectKind (by decide)).mono fun t s ht => ⟨t, ht.1, rfl, ht.2⟩)
  refine ensures_bind hidentifier ?_
  rintro _ _ ⟨t, ht, rfl, rfl⟩
  exact h t ht

theorem ensuresAt_accept_bind {x : Terminal} {f : Bool → Parse β} (hx : x ≠ .unreserved)
    (htrue : ∀ t : Token, t.terminal = x →
      Ensures (f true) fun b s => related b (.read t :: s))
    (hfalse : EnsuresAt front (f false) related) : EnsuresAt front (accept x >>= f) related := by
  intro finish ahead b hfront hb
  have hrun : (accept x >>= f).run finish ahead =
      ((accept x).run finish ahead).andThen fun answer rest => (f answer).run finish rest := rfl
  rw [hrun] at hb ⊢
  cases ahead with
  | nil =>
      rw [accept_run_nil hx] at hb ⊢
      exact hfalse hfront hb
  | cons t rest =>
      rw [accept_run_cons] at hb ⊢
      split at hb
      · next ht =>
        rw [if_pos ht]
        exact htrue t ht _ rfl hb
      · next ht =>
        rw [if_neg ht]
        exact hfalse hfront hb

theorem ensures_accept_bind {x : Terminal} {f : Bool → Parse β} (hx : x ≠ .unreserved)
    (htrue : ∀ t : Token, t.terminal = x →
      Ensures (f true) fun b s => related b (.read t :: s))
    (hfalse : Ensures (f false) related) : Ensures (accept x >>= f) related :=
  fun front => ensuresAt_accept_bind hx htrue (hfalse front)

theorem ensures_fix {body : (γ → Parse α) → γ → Parse α} (related : γ → α → Trace → Prop)
    (h : ∀ self, (∀ c, Ensures (self c) (related c)) → ∀ c, Ensures (body self c) (related c))
    (c : γ) : Ensures (fix body c) (related c) := by
  intro front finish ahead a
  induction hn : ahead.length using Nat.strongRecOn generalizing c front finish ahead a with
  | ind n ih =>
      intro hfront ha
      rw [fix_run] at ha ⊢
      refine h _ ?_ c front hfront ha
      intro c' front' finish' ahead' a' hfront' ha'
      by_cases hlt : ahead'.length < ahead.length
      · rw [below_run hlt] at ha' ⊢
        exact ih _ (hn ▸ hlt) c' front' rfl hfront' ha'
      · rw [below_run_of_le (Nat.not_lt.1 hlt)] at ha'
        exact absurd ha' (by simp [exhausted])

theorem ensuresAt_fix {body : (γ → Parse α) → γ → Parse α} {related : α → Trace → Prop}
    {c : γ} (h : ∀ self, EnsuresAt t (body self c) related) : EnsuresAt t (fix body c) related := by
  intro finish ahead a hfront ha
  rw [fix_run] at ha ⊢
  exact h _ hfront ha

theorem ensures_commaSeparated {item : Parse α} {first : α → Trace → Prop}
    (related : List α → Trace → Prop) (hitem : Ensures item first)
    (hone : ∀ a s, first a s → related [a] s)
    (hmore : ∀ a s t as u, first a s → related as u → related (a :: as) (s ++ .read t :: u)) :
    Ensures (commaSeparated item) related := by
  refine ensures_fix (fun _ => related) (fun self hself _ => ?_) ()
  refine ensures_bind hitem fun a s ha => ensures_accept_bind (by decide) ?_ ?_
  · intro t _
    exact ensures_map ((hself ()).mono fun as u has => hmore a s t as u ha has)
  · refine ensures_pure ?_
    rw [List.append_nil]
    exact hone a s ha

end

/-! ## Lists -/

section

variable {front : Token} {stops : Token → Bool} {count : List Token → Nat}
  {item : Parse (Option α)} {first : Option α → Trace → Prop}

theorem ensuresAt_recovering (hitem : EnsuresAt front item first)
    (hnone : ∀ s e u, first none (s ++ .report e :: u)) :
    EnsuresAt front (recovering count item) first := by
  intro finish ahead found hfront hfound
  cases ho : item.run finish ahead with
  | mk value trace rest =>
      cases value with
      | ok a =>
          rw [recovering_run_ok ho] at hfound ⊢
          obtain rfl := Except.ok.inj hfound
          have ha := hitem (a := a) hfront (by rw [ho])
          rwa [ho] at ha
      | error e =>
          rw [recovering_run_error ho] at hfound ⊢
          obtain rfl := Except.ok.inj hfound
          exact hnone _ _ _

theorem ensures_items (related : List α → Trace → Prop)
    (hitem : ∀ t, stops t = false → EnsuresAt t item first)
    (hnone : ∀ s e u, first none (s ++ .report e :: u)) (hnil : related [] [])
    (hcons : ∀ found s others u, first found s → related others u →
      related (found.toList ++ others) (s ++ u)) :
    Ensures (items stops count item) related := by
  refine ensures_fix (fun _ => related) (fun self hself _ => ?_) ()
  refine ensures_atEnd_bind fun done => ensures_current_bind fun t => ?_
  split
  · exact ensures_pure hnil t
  · next hgo =>
    simp only [Bool.or_eq_true, not_or, Bool.not_eq_true] at hgo
    refine ensuresAt_bind (ensuresAt_recovering (hitem t hgo.2) hnone) fun found s hfound => ?_
    refine ensures_map ((hself ()).mono fun others u hothers => ?_)
    exact hcons found s others u hfound hothers

theorem ensures_keep {wanted : NodeKind} {node : Node} {related : Option Node → Trace → Prop}
    (hkept : node.kind = wanted → related (some node) [])
    (hdropped : ∀ e, related none [.report e]) : Ensures (keep wanted node) related := by
  unfold keep
  split
  · next h => exact ensures_pure (hkept h)
  · exact ensures_report_bind (ensures_pure (hdropped _))

end

end MiniJava.Grammar
