import MiniJava.Proofs.Rendering.Sound
/-!
# Expressions read are expressions written

Every clean run of a production of expressions reads a rendering of the node that it
yields.
-/

namespace MiniJava

theorem Token.WellFormed.writtenAs {t : Token} (h : t.WellFormed) {value : Literal}
    (hvalue : Grammar.literalValue? t = some value) : value.WrittenAs t := by
  have hboolean : ∀ {x : Terminal}, x ≠ .unreserved → x.lexeme.kind = .boolean →
      x = .trueLiteral ∨ x = .falseLiteral := by
    intro x
    cases x <;> decide
  unfold Grammar.literalValue? at hvalue
  unfold Token.WellFormed at h
  generalize hl : t.toLexeme = l at h hvalue
  cases h with
  | word text =>
      rcases Lexicon.classify_cases text with ⟨-, hname⟩ | ⟨x, hx, hword⟩
      · rw [hname] at hvalue
        exact absurd hvalue (by simp [Lexeme.name])
      · rw [hword] at hl hvalue
        have hpayload : x.lexeme.payload = .none := by
          revert hx
          cases x <;> decide
        rw [hpayload] at hvalue
        split at hvalue
        case h_5 hkind =>
          obtain rfl := Option.some.inj hvalue
          rcases hboolean hx hkind with rfl | rfl <;> exact hl
        all_goals contradiction
  | integer text n =>
      obtain rfl : .integer n = value := by simpa [Lexeme.literal] using hvalue
      exact ⟨Int.natCast_nonneg n, text, hl⟩
  | real text x =>
      obtain rfl : .real x = value := by simpa [Lexeme.literal] using hvalue
      exact ⟨text, hl⟩
  | char c =>
      obtain rfl : .char c = value := by simpa [Lexeme.literal] using hvalue
      exact hl
  | string text =>
      obtain rfl : .string text = value := by simpa [Lexeme.literal] using hvalue
      exact hl

namespace Grammar

open Parse Rendering

variable {operand : Parse Node}

theorem binaryOperator?_spells {t : Token} {op : BinaryOperator} (ht : t.WellFormed)
    (h : binaryOperator? t.terminal = some op) :
    t.Spells op.terminal ∧ t.precedence = op.precedence := by
  have hop : t.terminal = op.terminal ∧ op.terminal ≠ .unreserved := by
    revert h
    cases t.terminal <;> simp only [binaryOperator?, Option.some.injEq, reduceCtorEq,
      false_imp_iff] <;> rintro rfl <;> decide
  have hspells := ht.spells hop.2 hop.1
  exact ⟨hspells, congrArg Lexeme.precedence hspells⟩

/-- A left side that the operator ahead may take is extended over the tokens read, and the
operator after them binds less tightly. -/
def Extends (b : Int × Node) (n : Node) (ts : List Token) (front : Token) : Prop :=
  ∀ s, 0 ≤ b.1 → Expression b.1 b.2 s → Expression (ts.headD front).precedence b.2 s →
    Expression b.1 n (s ++ ts) ∧ front.precedence < b.1

theorem climb_sound (h : Sound operand fun n ts _ => Operand n ts) (b : Int × Node) :
    Sound (climb operand b) (Extends b) := by
  refine sound_fix Extends ?_ b
  rintro self hself ⟨least, left⟩
  refine sound_current_bind fun t => ?_
  split
  · next hstop =>
    apply sound_pure
    rintro front rfl s hleast hleft _
    rw [List.append_nil]
    refine ⟨hleft, ?_⟩
    simp only [List.headD_nil] at hleast hstop ⊢
    omega
  · next hgo =>
    refine sound_taken_bind ?_ fun ht => ?_
    · rintro l rfl
      exact hgo (.inr (show (-1 : Int) < 0 by decide))
    split
    · exact sound_fail
    · next op hop =>
      obtain ⟨hspells, hprecedence⟩ := binaryOperator?_spells ht hop
      refine sound_bind h fun first s₁ => sound_current_bind fun u => ?_
      -- With its right side complete, the operator and its sides are the next left side.
      have hcontinue : ∀ right : Parse Node,
          Sound right (fun n s₂ front => s₂.headD front = u → Operand first s₁ →
            Expression (t.precedence + 1) n (s₁ ++ s₂) ∧ front.precedence ≤ t.precedence) →
          Sound (right >>= fun n => self (least, .binary op left n t.location))
            fun n ts front => ts.headD front = u → Operand first s₁ →
              Extends (least, left) n (t :: (s₁ ++ ts)) front := by
        intro right hright
        refine sound_bind hright fun n s₂ => Sound.mono (hself _) ?_
        intro m ts front hextends hcomplete hu hfirst s hleast hleft hnext
        obtain ⟨hn, hfront⟩ := hcomplete (by cases s₂ <;> exact hu) hfirst
        have hbinary : ∀ p, p ≤ t.precedence →
            Expression p (.binary op left n t.location) (s ++ t :: (s₁ ++ s₂)) := by
          intro p hp
          rw [List.headD_cons] at hnext
          rw [hprecedence] at hp hnext hn
          exact .binary hp hnext hspells hn
        have hresult := hextends _ hleast (hbinary least (by omega)) (hbinary _ hfront)
        simpa using hresult
      split
      · next htighter =>
        refine hcontinue _ (Sound.mono (hself _) ?_)
        intro n s₂ front hextends _ hfirst
        have hresult := hextends s₁ (by simp only; omega) (.operand hfirst) (.operand hfirst)
        exact ⟨hresult.1, Int.lt_add_one_iff.1 hresult.2⟩
      · next hlooser =>
        refine hcontinue _ (sound_pure ?_)
        rintro front rfl hfirst
        rw [List.append_nil]
        exact ⟨.operand hfirst, Int.not_lt.1 hlooser⟩

theorem expressionOf_sound (h : Sound operand fun n ts _ => Operand n ts) :
    Sound (expressionOf operand) fun n ts _ => Expression 0 n ts := by
  refine sound_bind h fun left s => Sound.mono (climb_sound h _) ?_
  intro n ts front hextends hleft
  exact (hextends s (Int.le_refl 0) (.operand hleft) (.operand hleft)).1

theorem arguments_sound (h : Sound operand fun n ts _ => Operand n ts) :
    Sound (arguments operand) fun ns ts _ => Arguments ns ts := by
  refine sound_expect_bind (by decide) fun opening hopening => sound_accept_bind (by decide) ?_ ?_
  · exact fun closing hclosing => sound_pure fun _ => .none hopening hclosing
  · refine sound_bind (commaSeparated_sound (expressionOf_sound h)) fun ns ts => ?_
    refine sound_expect_bind (by decide) fun closing hclosing => sound_pure ?_
    exact fun _ hns _ => .some hopening hns hclosing

theorem lengthCall_sound :
    Sound lengthCall fun n ts _ =>
      ∃ t, t.Spells .lengthKeyword ∧ n = .methodCall "length" [] t.location ∧ ts = [t] :=
  sound_expect_bind (by decide) fun t ht => sound_pure fun _ => ⟨t, ht, rfl, rfl⟩

theorem bracketed_sound (h : Sound operand fun n ts _ => Operand n ts) {name opening : Token}
    (hname : name.Names name.text) (hopening : opening.Spells .leftBracket) :
    Sound (bracketed operand name) fun n ts _ => Named n (name :: opening :: ts) := by
  refine sound_accept_bind (by decide) ?_ ?_
  · intro closing hclosing
    refine sound_identifier_bind fun u declared hu => sound_pure ?_
    exact fun _ => .arrayDeclaration hname hopening hclosing hu
  · refine sound_bind (expressionOf_sound h) fun index ts => ?_
    refine sound_expect_bind (by decide) fun closing hclosing => sound_pure ?_
    exact fun _ hindex _ => .index hname hopening hindex hclosing

theorem named_sound (h : Sound operand fun n ts _ => Operand n ts) :
    Sound (named operand) fun n ts _ => Named n ts := by
  refine sound_name_bind fun name hname => sound_current_bind fun t => ?_
  split
  · next ht =>
    refine sound_taken_bind ?_ fun hwf => sound_pure fun _ => ?_
    · rintro l rfl
      exact absurd ht (show TokenKind.endOfFile ≠ .identifier by decide)
    exact .declaration hname (hwf.names ht)
  split
  · refine sound_bind (arguments_sound h) fun ns ts => sound_pure ?_
    intro _ hns _
    rw [List.append_nil]
    exact .call hname hns
  · refine sound_accept_bind (by decide) ?_ ?_
    · intro opening hopening
      exact (bracketed_sound h hname hopening).mono fun _ _ _ hn _ => hn
    · exact sound_pure fun _ _ _ => .plain hname

theorem allocatedType_sound :
    Sound allocatedType fun t ts _ => ts = [t] ∧
      (t.kind = .dataType ∧ DataType t ∨ t.kind ≠ .dataType ∧ t.Names t.text) := by
  refine sound_current_bind fun t => ?_
  split
  · next ht =>
    refine sound_taken ?_ fun hwf _ => ⟨rfl, .inl ⟨ht, hwf.dataType ht⟩⟩
    rintro l rfl
    exact absurd ht (show TokenKind.endOfFile ≠ .dataType by decide)
  · next ht =>
    refine name_sound.mono ?_
    rintro u ts _ ⟨rfl, hu⟩ rfl
    exact ⟨rfl, .inr ⟨ht, hu⟩⟩

theorem allocation_sound (h : Sound operand fun n ts _ => Operand n ts) :
    Sound (allocation operand) fun n ts _ => Primary n ts := by
  refine sound_expect_bind (by decide) fun start hstart => ?_
  refine sound_bind allocatedType_sound fun type s => sound_accept_bind (by decide) ?_ ?_
  · intro opening hopening
    refine sound_bind (expressionOf_sound h) fun length ts => ?_
    refine sound_expect_bind (by decide) fun closing hclosing => sound_pure ?_
    rintro _ hlength ⟨rfl, htype⟩
    exact .array hstart (htype.imp And.right And.right) hopening hlength hclosing
  · rw [if_neg Bool.false_ne_true]
    split
    · exact sound_refuse
    · next hkind =>
      refine sound_bind (arguments_sound h) fun ns ts => sound_pure ?_
      rintro _ hns _ ⟨rfl, ⟨htype, -⟩ | ⟨-, htype⟩⟩
      · exact absurd htype hkind
      · rw [List.append_nil]
        exact .object hstart htype hns

theorem literal_sound : Sound literal fun n ts front =>
    (ts.headD front).kind ≠ .endOfFile → Primary n ts := by
  refine sound_advance_bind ?_ ?_
  · intro l n hkind
    exact absurd rfl hkind
  · intro t hwf
    split
    · next value hvalue => exact sound_pure fun _ _ => .literal (hwf.writtenAs hvalue)
    · exact sound_fail

theorem negation_sound
    (h : Sound operand fun n ts front => Operand n ts ∧ front.terminal ≠ .dot) :
    Sound (negation operand) fun n ts front => Operand n ts ∧ front.terminal ≠ .dot := by
  refine sound_expect_bind (by decide) fun t ht => sound_bind h fun n ts => sound_pure ?_
  rintro front ⟨hn, hfront⟩
  rw [List.append_nil]
  exact ⟨.negation ht hn, hfront⟩

theorem parenthesised_sound (h : Sound operand fun n ts _ => Operand n ts) :
    Sound (parenthesised operand) fun n ts _ => Primary n ts := by
  refine sound_expect_bind (by decide) fun opening hopening => ?_
  refine sound_bind (expressionOf_sound h) fun n ts => ?_
  refine sound_expect_bind (by decide) fun closing hclosing => sound_pure ?_
  exact fun _ hn => .parenthesised hopening hn hclosing

theorem keywordPrimary_sound (h : Sound operand fun n ts _ => Operand n ts) (t : Token) :
    Sound (keywordPrimary operand t) fun n ts front => ts.headD front = t → Primary n ts := by
  unfold keywordPrimary
  split
  · next ht =>
    refine sound_taken_bind ?_ fun hwf => sound_pure fun _ => ?_
    · rintro l rfl
      exact absurd ht (show Terminal.unreserved ≠ .thisKeyword by decide)
    exact .this (hwf.spells (by decide) ht)
  · exact (allocation_sound h).mono fun _ _ _ hn _ => hn
  · refine lengthCall_sound.mono ?_
    rintro n ts _ ⟨u, hu, rfl, rfl⟩ _
    exact .length hu
  · exact sound_fail

/-- Nothing but a negation may fail to be taken members of, and no member follows one. -/
theorem primary_sound
    (h : Sound operand fun n ts front => Operand n ts ∧ front.terminal ≠ .dot) :
    Sound (primary operand) fun n ts front =>
      Accessed n ts ∨ Operand n ts ∧ front.terminal ≠ .dot := by
  have hoperand : Sound operand fun n ts _ => Operand n ts := h.mono fun _ _ _ => And.left
  refine sound_current_bind fun t => ?_
  have hliteral : t.kind ≠ .endOfFile → Sound literal fun n ts front => ts.headD front = t →
      Accessed n ts ∨ Operand n ts ∧ front.terminal ≠ .dot := by
    intro ht
    refine literal_sound.mono ?_
    rintro n ts front hn rfl
    exact .inl (.primary (hn ht))
  split
  · next ht => exact hliteral (by rw [ht]; decide)
  · next ht => exact hliteral (by rw [ht]; decide)
  · next ht => exact hliteral (by rw [ht]; decide)
  · next ht => exact hliteral (by rw [ht]; decide)
  · next ht => exact hliteral (by rw [ht]; decide)
  · exact (named_sound hoperand).mono fun _ _ _ hn _ => .inl (.primary (.named hn))
  · exact (keywordPrimary_sound hoperand t).mono fun _ _ _ hn ht => .inl (.primary (hn ht))
  · split
    · exact (negation_sound h).mono fun _ _ _ hn _ => .inr hn
    · exact sound_fail
  · split
    · exact (parenthesised_sound hoperand).mono fun _ _ _ hn _ => .inl (.primary hn)
    · exact sound_fail
  · exact sound_fail
  · exact sound_fail
  · exact sound_fail

theorem memberName_sound (h : Sound operand fun n ts _ => Operand n ts) :
    Sound (memberName operand) fun n ts _ => Member n ts := by
  refine sound_current_bind fun t => ?_
  split
  · refine lengthCall_sound.mono ?_
    rintro n ts _ ⟨u, hu, rfl, rfl⟩ _
    exact .length hu
  split
  · exact (named_sound h).mono fun _ _ _ hn _ => .named hn
  · exact sound_refuse

theorem members_sound (h : Sound operand fun n ts _ => Operand n ts) (left : Node) :
    Sound (members operand left) fun n ts front => front.terminal ≠ .dot ∧
      (∀ s, Accessed left s → Accessed n (s ++ ts)) ∧
        ((ts.headD front).terminal ≠ .dot → ts = [] ∧ n = left) := by
  refine sound_fix (fun left n ts front => front.terminal ≠ .dot ∧
    (∀ s, Accessed left s → Accessed n (s ++ ts)) ∧
      ((ts.headD front).terminal ≠ .dot → ts = [] ∧ n = left)) ?_ left
  intro self hself left
  refine sound_current_bind fun t => ?_
  split
  · next ht =>
    refine sound_taken_bind ?_ fun hwf => ?_
    · rintro l rfl
      exact absurd ht (show Terminal.unreserved ≠ .dot by decide)
    have hdot := hwf.spells (by decide) ht
    refine sound_bind (memberName_sound h) fun member us => (hself _).mono ?_
    rintro n ts front ⟨hfront, hn, -⟩ hmember
    refine ⟨hfront, ?_, fun hfront => absurd ht hfront⟩
    intro s hleft
    have hresult := hn _ (.member hleft hdot hmember)
    simpa using hresult
  · next ht =>
    apply sound_pure
    rintro front rfl
    refine ⟨ht, ?_, fun _ => ⟨rfl, rfl⟩⟩
    intro s hleft
    rwa [List.append_nil]

theorem operand_sound :
    Sound Grammar.operand fun n ts front => Operand n ts ∧ front.terminal ≠ .dot := by
  refine sound_fix (fun _ n ts front => Operand n ts ∧ front.terminal ≠ .dot) ?_ ()
  intro self hself _
  have hoperand : Sound (self ()) fun n ts _ => Operand n ts :=
    (hself ()).mono fun _ _ _ => And.left
  refine sound_bind (primary_sound (hself ())) fun left s => (members_sound hoperand left).mono ?_
  rintro n ts front ⟨hfront, hmembers, hnone⟩ (hleft | ⟨hleft, hnext⟩)
  · exact ⟨.accessed (hmembers s hleft), hfront⟩
  · obtain ⟨rfl, rfl⟩ := hnone hnext
    rw [List.append_nil]
    exact ⟨hleft, hfront⟩

theorem expression_sound : Sound expression fun n ts _ => Expression 0 n ts :=
  expressionOf_sound (operand_sound.mono fun _ _ _ => And.left)

end Grammar

end MiniJava
