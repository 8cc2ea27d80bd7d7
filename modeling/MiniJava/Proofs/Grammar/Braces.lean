import MiniJava.Grammar.Recovery
import MiniJava.Proofs.Production.Consumption
/-!
# Braces

How deep the braces of a token list nest.  A token list is guarded if it closes at most so
many braces more than it opens and each `class` in it stands at least so deep; what the
three ways of skipping tokens pass over is guarded.
-/

namespace MiniJava

/-- What a token adds to the depth of braces. -/
def Token.brace (t : Token) : Int :=
  if t.terminal = .leftBrace then 1 else if t.terminal = .rightBrace then -1 else 0

def Token.Plain (t : Token) : Prop :=
  t.terminal ≠ .leftBrace ∧ t.terminal ≠ .rightBrace ∧ t.terminal ≠ .classKeyword

def balance : List Token → Int
  | [] => 0
  | t :: ts => t.brace + balance ts

namespace Token

variable {t : Token}

theorem brace_of_ne (hleft : t.terminal ≠ .leftBrace) (hright : t.terminal ≠ .rightBrace) :
    t.brace = 0 := by
  rw [brace, if_neg hleft, if_neg hright]

theorem Plain.brace_eq (h : t.Plain) : t.brace = 0 := brace_of_ne h.1 h.2.1

theorem brace_of_class (h : t.terminal = .classKeyword) : t.brace = 0 := by
  rw [brace, h]
  rfl

theorem brace_of_leftBrace (h : t.terminal = .leftBrace) : t.brace = 1 := by
  rw [brace, h]
  rfl

theorem brace_of_rightBrace (h : t.terminal = .rightBrace) : t.brace = -1 := by
  rw [brace, h]
  rfl

theorem WellFormed.brace_of_keyword (h : t.WellFormed) (ht : t.kind = .keyword) :
    t.brace = 0 := by
  have hne : ∀ {x : Terminal}, x ≠ .unreserved → x.lexeme.kind = .delimiter →
      t.terminal ≠ x := by
    intro x hx hkind hterminal
    have hspelled : t.kind = x.lexeme.kind := congrArg Lexeme.kind (h.spells hx hterminal)
    rw [ht, hkind] at hspelled
    exact absurd hspelled (by decide)
  exact brace_of_ne (hne (by decide) rfl) (hne (by decide) rfl)

theorem brace_nonneg (h : t.terminal ≠ .rightBrace) : 0 ≤ t.brace := by
  unfold brace
  rw [if_neg h]
  split <;> omega

end Token

@[simp] theorem balance_nil : balance [] = 0 := rfl

@[simp] theorem balance_cons (t : Token) (ts : List Token) :
    balance (t :: ts) = t.brace + balance ts := rfl

@[simp] theorem balance_append (ts us : List Token) :
    balance (ts ++ us) = balance ts + balance us := by
  induction ts with
  | nil => rw [List.nil_append, balance_nil, Int.zero_add]
  | cons t ts ih => rw [List.cons_append, balance_cons, balance_cons, ih, Int.add_assoc]

/-- Each `class` stands at least at a depth. -/
def Deep (level : Int) : List Token → Prop
  | [] => True
  | t :: ts => (t.terminal = .classKeyword → level ≤ 0) ∧ Deep (level - t.brace) ts

theorem Deep.mono {level level' : Int} {ts : List Token} (h : Deep level ts)
    (hlevel : level' ≤ level) : Deep level' ts := by
  induction ts generalizing level level' with
  | nil => trivial
  | cons t ts ih =>
      refine ⟨fun ht => ?_, ih h.2 (by omega)⟩
      have := h.1 ht
      omega

theorem deep_append (level : Int) (ts us : List Token) :
    Deep level (ts ++ us) ↔ Deep level ts ∧ Deep (level - balance ts) us := by
  induction ts generalizing level with
  | nil => simp [Deep]
  | cons t ts ih =>
      rw [List.cons_append, Deep, Deep, ih, balance_cons, Int.sub_sub, and_assoc]

/-- At most so many braces are closed that were not opened, and each `class` stands at least
at a depth. -/
def Guarded (low level : Int) (ts : List Token) : Prop :=
  low ≤ balance ts ∧ Deep level ts

namespace Guarded

variable {low level low' level' : Int} {ts us : List Token} {t : Token}

theorem mono (h : Guarded low level ts) (hlow : low' ≤ low) (hlevel : level' ≤ level) :
    Guarded low' level' ts :=
  ⟨Int.le_trans hlow h.1, h.2.mono hlevel⟩

theorem append (hs : Guarded low level ts) (ht : Guarded low' level' us)
    (hlevel : level ≤ low + level') : Guarded (low + low') level (ts ++ us) := by
  obtain ⟨hlow, hdeep⟩ := hs
  obtain ⟨hlow', hdeep'⟩ := ht
  refine ⟨?_, (deep_append ..).2 ⟨hdeep, hdeep'.mono ?_⟩⟩
  · rw [balance_append]
    omega
  · omega

theorem cons (ht : t.terminal = .classKeyword → t.brace + level ≤ 0) (h : Guarded low level ts) :
    Guarded (t.brace + low) (t.brace + level) (t :: ts) := by
  refine ⟨?_, ht, h.2.mono (by omega)⟩
  have := h.1
  rw [balance_cons]
  omega

theorem additive (level : Int) : Grammar.Additive (Guarded 0 level) where
  nil := ⟨Int.le_refl 0, trivial⟩
  append hs ht := hs.append ht (by omega)

theorem of_plain (ht : t.Plain) : Guarded 0 level [t] := by
  have h := cons (fun hclass => absurd hclass ht.2.2) (additive level).nil
  rwa [ht.brace_eq, Int.zero_add, Int.zero_add] at h

theorem of_brace_nonneg (ht : 0 ≤ t.brace) : Guarded 0 0 [t] := by
  refine ⟨?_, fun _ => Int.le_refl 0, trivial⟩
  rw [balance_cons, balance_nil]
  omega

theorem of_ne_rightBrace (ht : t.terminal ≠ .rightBrace) : Guarded 0 0 [t] :=
  .of_brace_nonneg (Token.brace_nonneg ht)

theorem of_leftBrace (ht : t.Spells .leftBrace) (h : Guarded (-1) 0 ts) :
    Guarded 0 1 (t :: ts) := by
  have hterminal := ht.terminal_eq (by decide)
  have hcons := cons (fun hclass => absurd (hterminal.symm.trans hclass) (by decide)) h
  rwa [Token.brace_of_leftBrace hterminal] at hcons

theorem of_rightBrace (ht : t.Spells .rightBrace) : Guarded (-1) 0 [t] := by
  have hterminal := ht.terminal_eq (by decide)
  have hbrace := Token.brace_of_rightBrace hterminal
  refine ⟨?_, fun hclass => absurd (hterminal.symm.trans hclass) (by decide), trivial⟩
  rw [balance_cons, balance_nil]
  omega

end Guarded

def Unbraced (ts : List Token) : Prop := ∀ t ∈ ts, t.Plain

namespace Grammar

/-! ## Skipped tokens -/

/-- Looking for a statement stops before a closing brace or where a statement may begin, and behind
a semicolon.  Any other token is passed. -/
theorem toStatement_cons (t : Token) (rest : List Token) :
    ((t.terminal = .rightBrace ∨ beginsStatement t = true) ∧ toStatement (t :: rest) = 0) ∨
    (t.terminal = .semicolon ∧ toStatement (t :: rest) = 1) ∨
    (t.terminal ≠ .rightBrace ∧ t.terminal ≠ .semicolon ∧ beginsStatement t = false ∧
      toStatement (t :: rest) = toStatement rest + 1) := by
  rw [toStatement]
  split
  · next hright => exact .inl ⟨.inl hright, rfl⟩
  · next hright =>
    split
    · next hsemicolon => exact .inr (.inl ⟨hsemicolon, rfl⟩)
    · next hsemicolon =>
      split
      · next hbegins => exact .inl ⟨.inr hbegins, rfl⟩
      · next hbegins =>
        rw [Bool.not_eq_true] at hbegins
        exact .inr (.inr ⟨hright, hsemicolon, hbegins, rfl⟩)

/-- Looking for a statement passes over no brace and no `class`. -/
theorem unbraced_take_toStatement (ts : List Token) : Unbraced (ts.take (toStatement ts)) := by
  induction ts with
  | nil => simp [Unbraced]
  | cons t ts ih =>
      rcases toStatement_cons t ts with
        ⟨-, hstop⟩ | ⟨hsemicolon, hstop⟩ | ⟨hright, -, hbegins, hgo⟩
      · rw [hstop]
        exact List.forall_mem_nil _
      · rw [hstop, List.take_succ_cons, List.take_zero, Unbraced, List.forall_mem_singleton,
          Token.Plain, hsemicolon]
        decide
      · rw [hgo, List.take_succ_cons]
        refine List.forall_mem_cons.2 ⟨⟨?_, hright, ?_⟩, ih⟩
        · intro ht
          exact absurd hbegins (by simp [beginsStatement, ht])
        · intro ht
          exact absurd hbegins (by simp [beginsStatement, ht])

/-- Looking for a method stops, with no brace open, where one may begin or the class may end.
Otherwise it passes a token, and the depth that it counts is that of the braces. -/
theorem toMember_cons (depth : Nat) (t : Token) (rest : List Token) :
    (depth = 0 ∧ (t.terminal = .publicKeyword ∨ t.terminal = .rightBrace) ∧
      toMember depth (t :: rest) = 0) ∨
    ∃ d : Nat, (d : Int) = depth + t.brace ∧ toMember depth (t :: rest) = toMember d rest + 1 := by
  rw [toMember]
  split
  · next hstop => exact .inl ⟨hstop.1, hstop.2, rfl⟩
  · next hgo =>
    right
    split
    · next hleft => exact ⟨depth + 1, by rw [Token.brace_of_leftBrace hleft]; rfl, rfl⟩
    · next hleft =>
      split
      · next hright =>
        -- a closing brace is passed only where one is open, so nothing is cut off at zero
        have hdepth : depth ≠ 0 := fun hzero => hgo ⟨hzero, .inr hright⟩
        exact ⟨depth - 1, by rw [Token.brace_of_rightBrace hright]; omega, rfl⟩
      · next hright => exact ⟨depth, by rw [Token.brace_of_ne hleft hright]; omega, rfl⟩

/-- Looking for a method passes over groups of braces whole. -/
theorem guarded_take_toMember (depth : Nat) (ts : List Token) :
    Guarded (-depth) (-depth) (ts.take (toMember depth ts)) := by
  have hnil : ∀ d : Nat, Guarded (-d) (-d) [] :=
    fun d => (Guarded.additive (-d)).nil.mono (by omega) (Int.le_refl _)
  induction ts generalizing depth with
  | nil => exact hnil depth
  | cons t ts ih =>
      rcases toMember_cons depth t ts with ⟨-, -, hstop⟩ | ⟨d, hd, hgo⟩
      · rw [hstop]
        exact hnil depth
      · rw [hgo, List.take_succ_cons]
        have hclass : t.terminal = .classKeyword → t.brace + -(d : Int) ≤ 0 :=
          fun hclass => by rw [Token.brace_of_class hclass]; omega
        exact (Guarded.cons hclass (ih d)).mono (by omega) (by omega)

end Grammar

end MiniJava
