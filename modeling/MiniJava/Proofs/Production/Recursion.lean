import MiniJava.Grammar.Parse
/-!
# Recursive productions

The production that a body defines in terms of itself is that body applied to the
production itself, restricted to fewer tokens than are ahead when it is entered.  What
holds of the body, if it holds of the restricted production, holds of the production.
-/

namespace MiniJava.Grammar.Parse

variable {α β : Type}

@[ext] theorem ext {p q : Parse α} (h : ∀ finish ahead, p.run finish ahead = q.run finish ahead) :
    p = q := by
  obtain ⟨run, hp⟩ := p
  obtain ⟨run', hq⟩ := q
  obtain rfl : run = run' := funext fun finish => funext fun ahead => h finish ahead
  rfl

theorem below_run {bound : Nat} {p : Parse α} {finish : Location} {ahead : List Token}
    (h : ahead.length < bound) : (below bound p).run finish ahead = p.run finish ahead :=
  if_pos h

theorem below_run_of_le {bound : Nat} {p : Parse α} {finish : Location} {ahead : List Token}
    (h : bound ≤ ahead.length) :
    (below bound p).run finish ahead = (exhausted (α := α)).run finish ahead :=
  if_neg (Nat.not_lt.2 h)

/-- More unfoldings than tokens ahead make no difference. -/
private theorem fixWithin_run (body : (β → Parse α) → β → Parse α) :
    ∀ (fuel fuel' : Nat) (b : β) (finish : Location) (ahead : List Token),
      ahead.length < fuel → ahead.length < fuel' →
      (fixWithin body fuel b).run finish ahead = (fixWithin body fuel' b).run finish ahead := by
  intro fuel
  induction fuel with
  | zero => intro fuel' b finish ahead h; exact absurd h (Nat.not_lt_zero _)
  | succ fuel ih =>
      intro fuel' b finish ahead h h'
      cases fuel' with
      | zero => exact absurd h' (Nat.not_lt_zero _)
      | succ fuel' =>
          have hself : (fun b' => below ahead.length (fixWithin body fuel b')) =
              fun b' => below ahead.length (fixWithin body fuel' b') := by
            funext b'
            ext1 finish' ahead'
            by_cases hlt : ahead'.length < ahead.length
            · rw [below_run hlt, below_run hlt]
              exact ih fuel' b' finish' ahead' (by omega) (by omega)
            · rw [below_run_of_le (by omega), below_run_of_le (by omega)]
          show (body _ b).run finish ahead = (body _ b).run finish ahead
          rw [hself]

/-- A recursive production is its body applied to itself on fewer tokens. -/
theorem fix_run (body : (β → Parse α) → β → Parse α) (b : β) (finish : Location)
    (ahead : List Token) :
    (fix body b).run finish ahead =
      (body (fun b' => below ahead.length (fix body b')) b).run finish ahead := by
  have hself : (fun b' => below ahead.length (fixWithin body ahead.length b')) =
      fun b' => below ahead.length (fix body b') := by
    funext b'
    ext1 finish' ahead'
    by_cases hlt : ahead'.length < ahead.length
    · rw [below_run hlt, below_run hlt]
      exact fixWithin_run body _ _ b' finish' ahead' hlt (Nat.lt_succ_self _)
    · rw [below_run_of_le (by omega), below_run_of_le (by omega)]
  show (body _ b).run finish ahead = _
  rw [hself]

end MiniJava.Grammar.Parse
