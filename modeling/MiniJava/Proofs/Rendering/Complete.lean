import MiniJava.Proofs.Production.CleanRun
import MiniJava.Proofs.Rendering.Program
/-!
# Completeness

A production is complete for a relation if it reads every token list that the relation puts
with a value and with the token after the list, and yields that value.  What is read is
assembled token by token; recursive productions need completeness only below a number of
tokens ahead.
-/

namespace MiniJava.Grammar

open Parse Rendering

variable {α β γ : Type}

/-- With fewer than so many tokens ahead, what is related to a value is read and yields it. -/
def Completes (bound : Nat) (finish : Location) (p : Parse α)
    (related : α → List Token → Token → Prop) : Prop :=
  ∀ ⦃a ts rest⦄, (ts ++ rest).length < bound → related a ts (frontOf finish rest) →
    p.Reads finish ts rest a

section

variable {finish : Location} {p : Parse α} {f : α → Parse β} {ts us rest : List Token}
  {t : Token} {a : α} {b : β} {x : Terminal} {name : String}

/-! ## Reading token by token -/

theorem reads_seq (hp : p.Reads finish ts (us ++ rest) a) (hf : (f a).Reads finish us rest b) :
    (p >>= f).Reads finish (ts ++ us) rest b :=
  reads_bind.2 ⟨ts, us, a, rfl, hp, hf⟩

theorem reads_seq_cons (hp : p.Reads finish (t :: ts) (us ++ rest) a)
    (hf : (f a).Reads finish us rest b) : (p >>= f).Reads finish (t :: (ts ++ us)) rest b :=
  reads_seq hp hf

theorem reads_seq_one (hp : p.Reads finish [t] (us ++ rest) a)
    (hf : (f a).Reads finish us rest b) : (p >>= f).Reads finish (t :: us) rest b :=
  reads_seq hp hf

theorem reads_then (hp : p.Reads finish ts rest a) (hf : (f a).Reads finish [] rest b) :
    (p >>= f).Reads finish ts rest b :=
  reads_bind.2 ⟨ts, [], a, (List.append_nil ts).symm, hp, hf⟩

theorem reads_done : (pure a : Parse α).Reads finish [] rest a := reads_pure.2 ⟨rfl, rfl⟩

theorem reads_mapped {g : α → β} (hp : p.Reads finish ts rest a) :
    (g <$> p).Reads finish ts rest (g a) := reads_map.2 ⟨a, hp, rfl⟩

theorem reads_spelled {f : Token → Parse β} (ht : t.Spells x) (hx : x ≠ .unreserved)
    (hf : (f t).Reads finish us rest b) : (expect x >>= f).Reads finish (t :: us) rest b :=
  (reads_expect_bind hx).2 ⟨t, us, rfl, ht.terminal_eq hx, hf⟩

theorem reads_accepted {f : Bool → Parse β} (ht : t.Spells x) (hx : x ≠ .unreserved)
    (hf : (f true).Reads finish us rest b) : (accept x >>= f).Reads finish (t :: us) rest b :=
  (reads_accept_bind hx).2 (.inl ⟨t, us, rfl, ht.terminal_eq hx, hf⟩)

theorem reads_passed {f : Bool → Parse β} (hx : x ≠ .unreserved)
    (ht : (frontOf finish (ts ++ rest)).terminal ≠ x) (hf : (f false).Reads finish ts rest b) :
    (accept x >>= f).Reads finish ts rest b :=
  (reads_accept_bind hx).2 (.inr ⟨ht, hf⟩)

theorem reads_named {f : Token → Parse β} (ht : t.Names name)
    (hf : (f t).Reads finish us rest b) :
    (expectKind .identifier >>= f).Reads finish (t :: us) rest b :=
  (reads_expectKind_bind (by decide)).2 ⟨t, us, rfl, congrArg Lexeme.kind ht, hf⟩

theorem reads_identified {f : String → Parse β} (ht : t.Names name)
    (hf : (f name).Reads finish us rest b) : (identifier >>= f).Reads finish (t :: us) rest b := by
  have htext : t.text = name := congrArg Lexeme.text ht
  exact reads_identifier_bind.2 ⟨t, us, rfl, congrArg Lexeme.kind ht, htext ▸ hf⟩

theorem reads_front {f : Token → Parse β} (hf : (f t).Reads finish ts rest b)
    (ht : frontOf finish (ts ++ rest) = t) : (current >>= f).Reads finish ts rest b :=
  reads_current_bind.2 (ht ▸ hf)

theorem reads_advance : advance.Reads finish [t] rest t := rfl

theorem reads_taken {f : Token → Parse β} (hf : (f t).Reads finish us rest b) :
    (advance >>= f).Reads finish (t :: us) rest b :=
  (reads_advance_bind (List.cons_ne_nil _ _)).2 ⟨t, us, rfl, hf⟩

end

/-! ## Recursion and lists -/

section

variable {finish : Location}

/-- A recursive production is complete if it is whenever it is complete below as many tokens
as are ahead. -/
theorem completes_fix (related : γ → α → List Token → Token → Prop)
    {body : (γ → Parse α) → γ → Parse α}
    (hbody : ∀ self bound, (∀ c, Completes bound finish (self c) (related c)) →
      ∀ c ⦃a ts rest⦄, (ts ++ rest).length = bound → related c a ts (frontOf finish rest) →
        (body self c).Reads finish ts rest a) (bound : Nat) (c : γ) :
    Completes bound finish (fix body c) (related c) := by
  induction bound generalizing c with
  | zero => exact fun _ _ _ hlt => absurd hlt (Nat.not_lt_zero _)
  | succ bound ih =>
      intro a ts rest hlt hrelated
      refine reads_fix.2 (hbody _ _ ?_ c rfl hrelated)
      intro c' a' ts' rest' hlt' hrelated'
      exact reads_below.2 ⟨hlt', ih c' (by omega) hrelated'⟩

theorem completes_commaSeparated (follow : Token → Prop) {item : Parse α}
    {related : α → List Token → Prop} {bound : Nat}
    (hcomma : ∀ t : Token, t.Spells .comma → follow t)
    (h : Completes bound finish item fun a ts front => related a ts ∧ follow front) :
    Completes bound finish (commaSeparated item) fun as ts front =>
      Separated related as ts ∧ follow front ∧ front.terminal ≠ .comma := by
  rintro as ts rest hlt ⟨hseparated, hfollow, hend⟩
  induction hseparated with
  | @one a ts ha =>
      exact reads_commaSeparated.2 ⟨ts, [], a, (List.append_nil ts).symm, h hlt ⟨ha, hfollow⟩,
        .inr ⟨hend, rfl, rfl⟩⟩
  | @more a as ts us comma ha ht _ ih =>
      have hlt' : (us ++ rest).length < bound := by
        simp only [List.length_append, List.length_cons] at hlt ⊢
        omega
      rw [List.append_assoc] at hlt
      exact reads_commaSeparated.2 ⟨ts, comma :: us, a, rfl, h hlt ⟨ha, hcomma comma ht⟩,
        .inl ⟨comma, us, as, rfl, ht.terminal_eq (by decide), ih hlt', rfl⟩⟩

/-- A list of items goes on after each, if each begins where the one before it may end, and
ends where it is stopped. -/
theorem items_reads (follow : Token → Prop) {stops : Token → Bool} {count : List Token → Nat}
    {item : Parse (Option α)} {related : α → List Token → Prop} {bound : Nat} {as : List α}
    {ts rest : List Token}
    (hitem : Completes bound finish item fun found ts front =>
      (∃ a, found = some a ∧ related a ts) ∧ follow front)
    (hbegins : ∀ {a ts}, related a ts → ∃ t us, ts = t :: us ∧ follow t ∧ stops t = false)
    (hsequence : Sequence related as ts) (hlt : (ts ++ rest).length < bound)
    (hfollow : follow (frontOf finish rest))
    (hstop : rest = [] ∨ stops (frontOf finish rest) = true) :
    (items stops count item).Reads finish ts rest as := by
  induction hsequence with
  | nil => exact reads_items.2 (.inl ⟨hstop, rfl, rfl⟩)
  | @cons a as s ts ha hrest ih =>
      obtain ⟨t, us, rfl, -, hgo⟩ := hbegins ha
      have hnext : follow (frontOf finish (ts ++ rest)) := by
        cases hrest with
        | nil => exact hfollow
        | cons hb =>
            obtain ⟨u, vs, rfl, hu, -⟩ := hbegins hb
            exact hu
      have hlt' : (ts ++ rest).length < bound := by
        simp only [List.length_append, List.length_cons] at hlt ⊢
        omega
      rw [List.append_assoc] at hlt
      exact reads_items.2 (.inr ⟨List.cons_ne_nil _ _, hgo, t :: us, ts, some a, as, rfl,
        List.cons_ne_nil _ _, hitem hlt ⟨⟨a, rfl, ha⟩, hnext⟩, ih hlt', rfl⟩)

theorem completes_some {p : Parse α} {related : α → List Token → Token → Prop} {bound : Nat}
    (h : Completes bound finish p related) :
    Completes bound finish (some <$> p) fun found ts front =>
      ∃ a, found = some a ∧ related a ts front := by
  rintro found ts rest hlt ⟨a, rfl, ha⟩
  exact reads_mapped (h hlt ha)

end

end MiniJava.Grammar
