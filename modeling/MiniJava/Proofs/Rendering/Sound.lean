import MiniJava.Proofs.Production.CleanRun
import MiniJava.Proofs.Rendering.Expression
/-!
# Sound productions

A production is sound for a relation if every clean run of it over well-formed tokens
relates its value, the tokens that it read and the token after them.  There is one rule for
each way of building productions.
-/

namespace MiniJava

theorem Token.WellFormed.dataType {t : Token} (h : t.WellFormed) (ht : t.kind = .dataType) :
    Rendering.DataType t := by
  obtain ⟨hspells, hkind⟩ := h.spells_of_isReserved (by rw [ht]; rfl)
  exact ⟨t.terminal, hkind.trans ht, hspells⟩

namespace Grammar

open Parse Rendering

variable {α β : Type}

/-- Whenever a production reads well-formed tokens cleanly, its value, these tokens and the
token after them are related. -/
def Sound (p : Parse α) (related : α → List Token → Token → Prop) : Prop :=
  ∀ ⦃finish ts rest a⦄, (∀ t ∈ ts, t.WellFormed) → p.Reads finish ts rest a →
    related a ts (frontOf finish rest)

theorem frontOf_append (finish : Location) (ts rest : List Token) :
    frontOf finish (ts ++ rest) = ts.headD (frontOf finish rest) := by
  cases ts <;> rfl

section

variable {p : Parse α} {f : α → Parse β} {related : β → List Token → Token → Prop}

theorem Sound.mono {weaker : β → List Token → Token → Prop} {q : Parse β} (h : Sound q related)
    (hweaker : ∀ b ts front, related b ts front → weaker b ts front) : Sound q weaker :=
  fun _ _ _ _ hwf hreads => hweaker _ _ _ (h hwf hreads)

theorem sound_pure {b : β} (h : ∀ front, related b [] front) : Sound (pure b) related := by
  intro finish ts rest b' hwf hreads
  obtain ⟨rfl, rfl⟩ := reads_pure.1 hreads
  exact h _

theorem sound_fail {e : SyntaxError} : Sound (fail e) related :=
  fun _ _ _ _ _ hreads => absurd hreads reads_fail

theorem sound_refuse {what : Expectation} : Sound (refuse what) related :=
  fun _ _ _ _ _ hreads => absurd hreads reads_refuse

theorem sound_report_bind {e : SyntaxError} {f : Unit → Parse β} :
    Sound (report e >>= f) related := by
  intro finish ts rest b _ hreads
  obtain ⟨_, _, _, _, hreport, _⟩ := reads_bind.1 hreads
  exact absurd hreport reads_report

theorem sound_bind {first : α → List Token → Token → Prop} (hp : Sound p first)
    (hf : ∀ a s, Sound (f a) fun b ts front =>
      first a s (ts.headD front) → related b (s ++ ts) front) :
    Sound (p >>= f) related := by
  intro finish ts rest b hwf hreads
  obtain ⟨s, t, a, rfl, hfirst, hnext⟩ := reads_bind.1 hreads
  obtain ⟨hs, ht⟩ := List.forall_mem_append.1 hwf
  have hfirst := hp hs hfirst
  rw [frontOf_append] at hfirst
  exact hf a s ht hnext hfirst

theorem sound_map {g : α → β} {first : α → List Token → Token → Prop} (hp : Sound p first)
    (h : ∀ a ts front, first a ts front → related (g a) ts front) :
    Sound (g <$> p) related := by
  intro finish ts rest b hwf hreads
  obtain ⟨a, hfirst, rfl⟩ := reads_map.1 hreads
  exact h _ _ _ (hp hwf hfirst)

theorem sound_some {first : α → List Token → Token → Prop} (hp : Sound p first) :
    Sound (some <$> p) fun found ts front => ∃ a, found = some a ∧ first a ts front :=
  sound_map hp fun a _ _ ha => ⟨a, rfl, ha⟩

theorem sound_current_bind {f : Token → Parse β}
    (h : ∀ t, Sound (f t) fun b ts front => ts.headD front = t → related b ts front) :
    Sound (current >>= f) related := by
  intro finish ts rest b hwf hreads
  rw [reads_current_bind] at hreads
  exact h _ hwf hreads (frontOf_append finish ts rest).symm

theorem sound_atEnd_bind {f : Bool → Parse β} (h : ∀ done, Sound (f done) related) :
    Sound (atEnd >>= f) related := by
  intro finish ts rest b hwf hreads
  rw [reads_atEnd_bind] at hreads
  exact h _ hwf hreads

theorem sound_advance_bind {f : Token → Parse β} (hend : ∀ l b, related b [] (.endOfFile l))
    (h : ∀ t, t.WellFormed → Sound (f t) fun b ts front => related b (t :: ts) front) :
    Sound (advance >>= f) related := by
  intro finish ts rest b hwf hreads
  by_cases hne : ts ++ rest = []
  · obtain ⟨rfl, rfl⟩ := List.append_eq_nil_iff.1 hne
    exact hend finish b
  · rw [reads_advance_bind hne] at hreads
    obtain ⟨t, us, rfl, hreads⟩ := hreads
    obtain ⟨ht, hus⟩ := List.forall_mem_cons.1 hwf
    exact h t ht hus hreads

theorem sound_taken_bind {f : Token → Parse β} {t : Token} (hend : ∀ l, t ≠ .endOfFile l)
    (h : t.WellFormed → Sound (f t) fun b ts front => related b (t :: ts) front) :
    Sound (advance >>= f) fun b ts front => ts.headD front = t → related b ts front := by
  refine sound_advance_bind ?_ ?_
  · intro l _ hfront
    exact absurd hfront.symm (hend l)
  · rintro t' hwf finish ts rest b hts hreads rfl
    exact h hwf hts hreads

theorem sound_taken {related : Token → List Token → Token → Prop} {t : Token}
    (hend : ∀ l, t ≠ .endOfFile l) (h : t.WellFormed → ∀ front, related t [t] front) :
    Sound advance fun b ts front => ts.headD front = t → related b ts front := by
  rw [← bind_pure advance]
  exact sound_taken_bind hend fun hwf => sound_pure (h hwf)

theorem name_sound :
    Sound (expectKind .identifier) fun t ts _ => ts = [t] ∧ t.Names t.text := by
  intro finish ts rest t hwf hreads
  obtain ⟨rfl, ht⟩ := (reads_expectKind (by decide)).1 hreads
  exact ⟨rfl, (hwf t (List.mem_singleton.2 rfl)).names ht⟩

theorem sound_expect_bind {x : Terminal} {f : Token → Parse β} (hx : x ≠ .unreserved)
    (h : ∀ t, t.Spells x → Sound (f t) fun b ts front => related b (t :: ts) front) :
    Sound (expect x >>= f) related := by
  intro finish ts rest b hwf hreads
  rw [reads_expect_bind hx] at hreads
  obtain ⟨t, us, rfl, ht, hreads⟩ := hreads
  obtain ⟨hwf, hus⟩ := List.forall_mem_cons.1 hwf
  exact h t (hwf.spells hx ht) hus hreads

theorem sound_name_bind {f : Token → Parse β}
    (h : ∀ t, t.Names t.text → Sound (f t) fun b ts front => related b (t :: ts) front) :
    Sound (expectKind .identifier >>= f) related := by
  refine sound_bind name_sound ?_
  rintro t s finish ts rest b hwf hreads ⟨rfl, ht⟩
  exact h t ht hwf hreads

theorem identifier_sound : Sound identifier fun name ts _ => ∃ t, ts = [t] ∧ t.Names name := by
  refine sound_map name_sound ?_
  rintro t ts _ ⟨rfl, ht⟩
  exact ⟨t, rfl, ht⟩

theorem sound_identifier_bind {f : String → Parse β}
    (h : ∀ t name, t.Names name →
      Sound (f name) fun b ts front => related b (t :: ts) front) :
    Sound (identifier >>= f) related := by
  refine sound_bind identifier_sound ?_
  rintro name s finish ts rest b hwf hreads ⟨t, rfl, ht⟩
  exact h t name ht hwf hreads

theorem sound_accept_bind {x : Terminal} {f : Bool → Parse β} (hx : x ≠ .unreserved)
    (htrue : ∀ t, t.Spells x → Sound (f true) fun b ts front => related b (t :: ts) front)
    (hfalse : Sound (f false) fun b ts front =>
      (ts.headD front).terminal ≠ x → related b ts front) :
    Sound (accept x >>= f) related := by
  intro finish ts rest b hwf hreads
  rw [reads_accept_bind hx] at hreads
  rcases hreads with ⟨t, us, rfl, ht, hreads⟩ | ⟨hfront, hreads⟩
  · obtain ⟨hwf, hus⟩ := List.forall_mem_cons.1 hwf
    exact htrue t (hwf.spells hx ht) hus hreads
  · rw [frontOf_append] at hfront
    exact hfalse hwf hreads hfront

theorem sound_check_bind {x : Terminal} {f : Bool → Parse β}
    (htrue : Sound (f true) fun b ts front => (ts.headD front).terminal = x → related b ts front)
    (hfalse : Sound (f false) fun b ts front =>
      (ts.headD front).terminal ≠ x → related b ts front) :
    Sound (check x >>= f) related := by
  intro finish ts rest b hwf hreads
  rw [reads_check_bind, frontOf_append] at hreads
  by_cases hfront : (ts.headD (frontOf finish rest)).terminal = x
  · rw [hfront, beq_self_eq_true] at hreads
    exact htrue hwf hreads hfront
  · rw [beq_eq_false_iff_ne.2 hfront] at hreads
    exact hfalse hwf hreads hfront

end

theorem recovering_sound {count : List Token → Nat} {item : Parse (Option α)}
    {related : Option α → List Token → Token → Prop} (h : Sound item related) :
    Sound (recovering count item) related :=
  fun _ _ _ _ hwf hreads => h hwf (reads_recovering.1 hreads)

theorem keep_sound {wanted : NodeKind} {node : Node} :
    Sound (keep wanted node) fun found ts _ => ts = [] ∧ node.kind = wanted ∧ found = some node :=
  fun _ _ _ _ _ hreads => reads_keep.1 hreads

/-- What a body preserves holds of the production that it defines. -/
theorem sound_fix {body : (β → Parse α) → β → Parse α}
    (related : β → α → List Token → Token → Prop)
    (h : ∀ self, (∀ b, Sound (self b) (related b)) → ∀ b, Sound (body self b) (related b))
    (b : β) : Sound (fix body b) (related b) := by
  intro finish ts rest a
  induction hn : (ts ++ rest).length using Nat.strongRecOn generalizing b finish ts rest a with
  | ind n ih =>
      intro hwf hreads
      rw [reads_fix] at hreads
      refine h _ ?_ b hwf hreads
      intro b' finish' ts' rest' a' hwf' hreads'
      obtain ⟨hlt, hreads'⟩ := reads_below.1 hreads'
      exact ih _ (hn ▸ hlt) b' rfl hwf' hreads'

theorem commaSeparated_sound {item : Parse α} {written : α → List Token → Prop}
    (h : Sound item fun a ts _ => written a ts) :
    Sound (commaSeparated item) fun as ts _ => Separated written as ts := by
  refine sound_fix (fun _ as ts _ => Separated written as ts) ?_ ()
  intro self hself _
  refine sound_bind h fun first s => sound_accept_bind (by decide) ?_ ?_
  · intro comma hcomma
    refine sound_map (hself ()) ?_
    intro others us _ hothers hfirst
    exact .more hfirst hcomma hothers
  · apply sound_pure
    intro _ _ hfirst
    rw [List.append_nil]
    exact .one hfirst

theorem items_sound {stops : Token → Bool} {count : List Token → Nat} {item : Parse (Option α)}
    {first : Option α → List Token → Token → Prop} (written : List α → List Token → Prop)
    (h : Sound item first) (hnil : written [] [])
    (hcons : ∀ found s others ts front, stops ((s ++ ts).headD front) = false →
      first found s (ts.headD front) → written others ts →
      written (found.toList ++ others) (s ++ ts)) :
    Sound (items stops count item) fun found ts _ => written found ts := by
  refine sound_fix (fun _ found ts _ => written found ts) ?_ ()
  intro self hself _
  refine sound_atEnd_bind fun done => sound_current_bind fun t => ?_
  split
  · exact sound_pure fun _ _ => hnil
  · next hgo =>
    simp only [Bool.or_eq_true, not_or, Bool.not_eq_true] at hgo
    refine sound_bind (recovering_sound h) fun found s => sound_map (hself ()) ?_
    rintro others ts front hothers hfound rfl
    exact hcons found s others ts front hgo.2 hfound hothers

end Grammar

end MiniJava
