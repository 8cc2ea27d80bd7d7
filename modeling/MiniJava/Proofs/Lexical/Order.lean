import MiniJava.Proofs.Lexical.Scan
/-!
# The order of the tokens of a source

The places of the tokens of a source increase strictly: by line, and within a line by column.
-/

namespace MiniJava

namespace Point

/-- On an earlier line, or on the same line in an earlier column. -/
def Before (p q : Point) : Prop := p.line < q.line ∨ p.line = q.line ∧ p.column < q.column

theorem Before.trans {p q r : Point} (hpq : p.Before q) (hqr : q.Before r) : p.Before r := by
  unfold Before at *
  omega

theorem not_before_self (p : Point) : ¬ p.Before p := by
  unfold Before
  omega

theorem before_step (p : Point) (c : Char) : p.Before (p.step c) := by
  unfold step Before
  split
  · exact .inl (Nat.lt_succ_self _)
  · exact .inr ⟨rfl, Nat.lt_succ_self _⟩

theorem before_after (p : Point) {text : List Char} (h : text ≠ []) : p.Before (p.after text) := by
  induction text generalizing p with
  | nil => exact absurd rfl h
  | cons c text ih =>
      rw [after_cons]
      cases text with
      | nil => exact p.before_step c
      | cons d text => exact (p.before_step c).trans (ih _ (List.cons_ne_nil _ _))

end Point

namespace Location

def Before (l m : Location) : Prop := l.source = m.source ∧ l.toPoint.Before m.toPoint

theorem Before.trans {l m n : Location} (hlm : l.Before m) (hmn : m.Before n) : l.Before n :=
  ⟨hlm.1.trans hmn.1, hlm.2.trans hmn.2⟩

theorem Before.ne {l m : Location} (h : l.Before m) : l ≠ m := by
  rintro rfl
  exact l.toPoint.not_before_self h.2

end Location

namespace Lexical

/-- The tokens of the segments after a point stand there or later, one after another. -/
theorem Segmented.ordered {text : List Char} {gs : List Segment} (h : Segmented text gs)
    (source : String) (p : Point) :
    ((Readings.ofSegments source p gs).tokens.map (·.location)).Pairwise Location.Before ∧
      ∀ t ∈ (Readings.ofSegments source p gs).tokens,
        ⟨p, source⟩ = t.location ∨ Location.Before ⟨p, source⟩ t.location := by
  induction h generalizing p with
  | nil => exact ⟨.nil, List.forall_mem_nil _⟩
  | @cons text rest g gs _ fronts _ ih =>
      obtain ⟨hordered, hlater⟩ := ih (p.after g.text)
      have hadvance : Location.Before ⟨p, source⟩ ⟨p.after g.text, source⟩ :=
        ⟨rfl, p.before_after fronts.nonempty⟩
      have hbefore : ∀ t ∈ (Readings.ofSegments source (p.after g.text) gs).tokens,
          Location.Before ⟨p, source⟩ t.location := by
        intro t ht
        rcases hlater t ht with hplace | hplace
        · exact hplace ▸ hadvance
        · exact hadvance.trans hplace
      unfold Readings.ofSegments
      cases hc : g.content with
      | gap => exact ⟨hordered, fun t ht => .inr (hbefore t ht)⟩
      | malformed first others =>
          dsimp only
          rw [Readings.tokens_precededBy]
          exact ⟨hordered, fun t ht => .inr (hbefore t ht)⟩
      | word lexeme =>
          refine ⟨.cons (List.forall_mem_map.2 hbefore) hordered, ?_⟩
          exact List.forall_mem_cons.2 ⟨.inl rfl, fun t ht => .inr (hbefore t ht)⟩

end Lexical

end MiniJava
