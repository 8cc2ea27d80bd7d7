import MiniJava.Proofs.Production.Consumption
/-!
# Descent

A recursive production comes to an end if each time it is entered again there are fewer
tokens ahead.  Unfolded without any guard, with something arbitrary at the bottom, it then
never gets to the bottom.  Two productions are compared where only so many tokens are ahead;
reading a token lowers that number.
-/

namespace MiniJava.Grammar

open Parse

variable {α β : Type}

/-! ## Productions compared on few tokens -/

/-- With a given token at the front, two productions do the same if fewer than `n` tokens are
ahead. -/
def SameBelowAt (front : Token) (n : Nat) (p q : Parse α) : Prop :=
  ∀ ⦃finish ahead⦄, frontOf finish ahead = front → ahead.length < n →
    p.run finish ahead = q.run finish ahead

def SameBelow (n : Nat) (p q : Parse α) : Prop := ∀ front, SameBelowAt front n p q

section

variable {front : Token} {m n : Nat} {p p' : Parse α} {f f' : α → Parse β}

theorem sameBelow_refl (n : Nat) (p : Parse α) : SameBelow n p p := fun _ _ _ _ _ => rfl

theorem SameBelow.mono (h : SameBelow n p p') (hm : m ≤ n) : SameBelow m p p' :=
  fun front _ _ hfront hlt => h front hfront (Nat.lt_of_lt_of_le hlt hm)

theorem sameBelowAt_bind (hp : SameBelowAt front n p p') (hf : ∀ a, SameBelow n (f a) (f' a)) :
    SameBelowAt front n (p >>= f) (p' >>= f') := by
  intro finish ahead hfront hlt
  have hle : (p.run finish ahead).rest.length ≤ ahead.length := by
    have hahead := congrArg List.length (p.conserves finish ahead)
    rw [List.length_append] at hahead
    omega
  have hsame := hp hfront hlt
  rcases run_bind_cases p f finish ahead with
    ⟨e, trace, rest, hrun, hbind⟩ | ⟨a, trace, rest, hrun, hbind⟩
  · rw [hbind, run_bind_of_error (hsame.symm.trans hrun)]
  · rw [hrun] at hle
    rw [hbind, run_bind_of_ok (hsame.symm.trans hrun), hf a _ rfl (Nat.lt_of_le_of_lt hle hlt)]

/-- What comes after a token that has been read needs to be the same on fewer tokens only. -/
theorem sameBelowAt_advancing_bind (hp : SameBelowAt front (n + 1) p p')
    (hadvance : AdvancesAt front p) (hf : ∀ a, SameBelow n (f a) (f' a)) :
    SameBelowAt front (n + 1) (p >>= f) (p' >>= f') := by
  intro finish ahead hfront hlt
  have hsame := hp hfront hlt
  rcases run_bind_cases p f finish ahead with
    ⟨e, trace, rest, hrun, hbind⟩ | ⟨a, trace, rest, hrun, hbind⟩
  · rw [hbind, run_bind_of_error (hsame.symm.trans hrun)]
  · have htokens := hadvance (a := a) hfront (by rw [hrun])
    rw [hrun] at htokens
    have hrest := length_rest_lt hrun htokens
    rw [hbind, run_bind_of_ok (hsame.symm.trans hrun), hf a _ rfl (by omega)]

theorem sameBelow_bind (hp : SameBelow n p p') (hf : ∀ a, SameBelow n (f a) (f' a)) :
    SameBelow n (p >>= f) (p' >>= f') :=
  fun front => sameBelowAt_bind (hp front) hf

theorem sameBelow_after (hadvance : Advances p) (hf : ∀ a, SameBelow n (f a) (f' a)) :
    SameBelow (n + 1) (p >>= f) (p >>= f') :=
  fun front => sameBelowAt_advancing_bind (sameBelow_refl _ p front) (hadvance front) hf

theorem sameBelow_current_bind {f f' : Token → Parse β}
    (h : ∀ t, SameBelowAt t n (f t) (f' t)) :
    SameBelow n (current >>= f) (current >>= f') := by
  rintro front finish ahead rfl hlt
  exact h _ rfl hlt

theorem sameBelowAt_map {g : α → β} (hp : SameBelowAt front n p p') :
    SameBelowAt front n (g <$> p) (g <$> p') := by
  rw [map_eq_bind, map_eq_bind]
  exact sameBelowAt_bind hp fun a => sameBelow_refl n _

theorem sameBelow_map {g : α → β} (hp : SameBelow n p p') :
    SameBelow n (g <$> p) (g <$> p') :=
  fun front => sameBelowAt_map (hp front)

theorem sameBelow_attempt (hp : SameBelow n p p') : SameBelow n (attempt p) (attempt p') := by
  intro front finish ahead hfront hlt
  have hrun : ∀ q : Parse α, (attempt q).run finish ahead =
      ⟨.ok ((q.run finish ahead).value, (q.run finish ahead).trace.tokens.isEmpty),
        (q.run finish ahead).trace, (q.run finish ahead).rest⟩ := fun _ => rfl
  rw [hrun, hrun, hp front hfront hlt]

theorem sameBelow_recovering {count : List Token → Nat} {item item' : Parse (Option α)}
    (h : SameBelow n item item') :
    SameBelow n (recovering count item) (recovering count item') :=
  sameBelow_bind (sameBelow_attempt h) fun _ => sameBelow_refl n _

theorem sameBelow_fix {body body' : (β → Parse α) → β → Parse α}
    (h : ∀ self self', (∀ b, SameBelow n (self b) (self' b)) →
      ∀ b, SameBelow n (body self b) (body' self' b)) (b : β) :
    SameBelow n (fix body b) (fix body' b) := by
  intro front finish ahead
  induction hlen : ahead.length using Nat.strongRecOn generalizing b front finish ahead with
  | ind k ih =>
      intro hfront hlt
      rw [fix_run, fix_run]
      refine h _ _ (fun b' front' finish' ahead' hfront' hlt' => ?_) b front hfront (hlen ▸ hlt)
      by_cases hfewer : ahead'.length < ahead.length
      · rw [below_run hfewer, below_run hfewer]
        exact ih _ (hlen ▸ hfewer) b' front' rfl hfront' hlt'
      · rw [below_run_of_le (Nat.not_lt.1 hfewer), below_run_of_le (Nat.not_lt.1 hfewer)]

theorem sameBelow_items {stops : Token → Bool} {count : List Token → Nat}
    {item item' : Parse (Option α)} (h : SameBelow n item item') :
    SameBelow n (items stops count item) (items stops count item') := by
  refine sameBelow_fix (fun self self' hself _ => ?_) ()
  refine sameBelow_bind (sameBelow_refl n _) fun done => sameBelow_current_bind fun t => ?_
  split
  · exact sameBelow_refl n _ t
  · exact sameBelow_bind (sameBelow_recovering h) (fun _ => sameBelow_map (hself ())) t

theorem sameBelow_commaSeparated {item item' : Parse α} (h : SameBelow n item item') :
    SameBelow n (commaSeparated item) (commaSeparated item') := by
  refine sameBelow_fix (fun self self' hself _ => ?_) ()
  refine sameBelow_bind h fun first => sameBelow_bind (sameBelow_refl n _) fun more => ?_
  split
  · exact sameBelow_map (hself ())
  · exact sameBelow_refl n _

end

/-! ## Unfolding without a guard -/

def unfolded (body : (β → Parse α) → β → Parse α) (bottom : β → Parse α) : Nat → β → Parse α
  | 0 => bottom
  | n + 1 => body (unfolded body bottom n)

/-- A body that applies what it is given only after reading a token. -/
def Guarding (body : (β → Parse α) → β → Parse α) : Prop :=
  ∀ (n : Nat) (self self' : β → Parse α), (∀ b, SameBelow n (self b) (self' b)) →
    ∀ b, SameBelow (n + 1) (body self b) (body self' b)

/-- With more unfoldings than tokens ahead the bottom does not matter, and what is unfolded
does what the recursive production does. -/
def Descends (body : (β → Parse α) → β → Parse α) : Prop :=
  ∀ (bottom : β → Parse α) (n : Nat) (b : β), SameBelow n (unfolded body bottom n b) (fix body b)

/-- Such a body needs no guard when it is applied to what it defines. -/
theorem Guarding.fix_eq {body : (β → Parse α) → β → Parse α} (h : Guarding body) (b : β) :
    fix body b = body (fix body) b := by
  ext1 finish ahead
  rw [fix_run]
  refine h ahead.length _ _ (fun b' front finish' ahead' _ hfewer => ?_) b _ rfl
    (Nat.lt_succ_self _)
  exact below_run hfewer

theorem Guarding.descends {body : (β → Parse α) → β → Parse α} (h : Guarding body) :
    Descends body := by
  intro bottom n
  induction n with
  | zero => exact fun _ _ _ _ _ hlt => absurd hlt (Nat.not_lt_zero _)
  | succ n ih =>
      intro b front finish ahead hfront hlt
      rw [h.fix_eq]
      exact h n _ _ ih b front hfront hlt

end MiniJava.Grammar
