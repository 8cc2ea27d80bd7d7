import MiniJava.Proofs.Json.Grammar
import MiniJava.Proofs.Lexical.Boundary
/-!
# JSON texts are unambiguous

A text denotes one JSON value at most.  Each construct is determined by a text that goes on
after it, as long as what follows cannot belong to it.
-/

namespace MiniJava.Json

open MiniJava.Text

/-- Two runs of one sort that are followed by something of another sort. -/
theorem runs_inj {p : Char → Bool} {t u r r' : List Char} (ht : ∀ c ∈ t, p c = true)
    (hu : ∀ c ∈ u, p c = true) (hr : ∀ c ∈ r.head?, p c = false)
    (hr' : ∀ c ∈ r'.head?, p c = false) (h : t ++ r = u ++ r') : t = u ∧ r = r' := by
  have htake := congrArg (List.takeWhile p) h
  rw [Lexical.takeWhile_append_of_front ht hr, Lexical.takeWhile_append_of_front hu hr'] at htake
  subst htake
  exact ⟨rfl, List.append_cancel_left h⟩

/-! ## Numerals -/

def inNumeral (c : Char) : Bool :=
  c.isDigit || c == '-' || c == '+' || c == '.' || c == 'e' || c == 'E'

theorem inNumeral_of_isDigit {c : Char} (h : c.isDigit = true) : inNumeral c = true := by
  simp [inNumeral, h]

theorem Numeral.forall_inNumeral {t : List Char} (h : Numeral t) :
    ∀ c ∈ t, inNumeral c = true := by
  have hdigits : ∀ {ds}, Digits ds → ∀ c ∈ ds, inNumeral c = true :=
    fun h c hc => inNumeral_of_isDigit (h.2 c hc)
  obtain ⟨hminus, hwhole, hfraction, hexponent⟩ := h
  simp only [List.forall_mem_append]
  refine ⟨?_, hdigits hwhole.1, ?_, ?_⟩
  · rcases hminus with rfl | rfl
    · exact List.forall_mem_nil _
    · exact List.forall_mem_singleton.2 rfl
  · cases hfraction with
    | none => exact List.forall_mem_nil _
    | digits h => exact List.forall_mem_cons.2 ⟨by decide, hdigits h⟩
  · cases hexponent with
    | none => exact List.forall_mem_nil _
    | digits hmark hsign h =>
        refine List.forall_mem_cons.2 ⟨?_, List.forall_mem_append.2 ⟨?_, hdigits h⟩⟩
        · rcases hmark with rfl | rfl <;> decide
        · rcases hsign with rfl | rfl | rfl
          · exact List.forall_mem_nil _
          · exact List.forall_mem_singleton.2 rfl
          · exact List.forall_mem_singleton.2 rfl

theorem Numeral.head {t : List Char} (h : Numeral t) :
    ∃ c rest, t = c :: rest ∧ (c = '-' ∨ c.isDigit = true) := by
  obtain ⟨hminus, hwhole, -, -⟩ := h
  rcases hminus with rfl | rfl
  · obtain ⟨c, ds, hds⟩ := List.exists_cons_of_ne_nil hwhole.1.1
    subst hds
    exact ⟨c, _, rfl, .inr (hwhole.1.2 c (List.mem_cons_self ..))⟩
  · exact ⟨'-', _, rfl, .inl rfl⟩

/-! ## Strings -/

theorem CodeUnit.inj {m n : Nat} {ds es r r' : List Char} (hm : CodeUnit m ds) (hn : CodeUnit n es)
    (h : ds ++ r = es ++ r') : m = n ∧ ds = es ∧ r = r' := by
  obtain ⟨rfl, rfl⟩ := List.append_inj h (hm.1.trans hn.1.symm)
  exact ⟨hm.2.2.symm.trans hn.2.2, rfl, rfl⟩

theorem toNat_ne_surrogate (c : Char) {half : Nat} (h : half < 0x400) :
    c.toNat ≠ 0xD800 + half := by
  have hvalid : c.toNat < 0xD800 ∨ 0xDFFF < c.toNat ∧ c.toNat < 0x110000 := c.valid
  omega

theorem Written.head {c : Char} {t : List Char} (h : Written c t) :
    ∃ d rest, t = d :: rest ∧ d ≠ '\x22' := by
  cases h with
  | plain hquote => exact ⟨c, [], rfl, hquote⟩
  | short => exact ⟨'\\', _, rfl, by decide⟩
  | code => exact ⟨'\\', _, rfl, by decide⟩
  | pair => exact ⟨'\\', _, rfl, by decide⟩

theorem shortEscapes_inj : ∀ e ∈ shortEscapes, ∀ f ∈ shortEscapes, e.1 = f.1 → e = f := by decide

theorem shortEscapes_ne_u : ∀ e ∈ shortEscapes, e.1 ≠ 'u' := by decide

theorem Written.inj {c d : Char} {t u r r' : List Char} (hc : Written c t) (hd : Written d u)
    (h : t ++ r = u ++ r') : c = d ∧ t = u := by
  cases hc with
  | plain _ hslash =>
      cases hd with
      | plain =>
          obtain ⟨rfl, -⟩ := List.cons.inj h
          exact ⟨rfl, rfl⟩
      | short => exact absurd (List.cons.inj h).1 hslash
      | code => exact absurd (List.cons.inj h).1 hslash
      | pair => exact absurd (List.cons.inj h).1 hslash
  | short he =>
      cases hd with
      | plain _ hslash => exact absurd (List.cons.inj h).1.symm hslash
      | short hf =>
          simp only [List.cons_append, List.nil_append, List.cons.injEq, true_and] at h
          obtain ⟨rfl, -⟩ := h
          obtain ⟨-, rfl⟩ := Prod.mk.inj (shortEscapes_inj _ he _ hf rfl)
          exact ⟨rfl, rfl⟩
      | code => exact absurd (List.cons.inj (List.cons.inj h).2).1 (shortEscapes_ne_u _ he)
      | pair => exact absurd (List.cons.inj (List.cons.inj h).2).1 (shortEscapes_ne_u _ he)
  | code hunit =>
      cases hd with
      | plain _ hslash => exact absurd (List.cons.inj h).1.symm hslash
      | short hf =>
          exact absurd (List.cons.inj (List.cons.inj h).2).1.symm (shortEscapes_ne_u _ hf)
      | code hunit' =>
          simp only [List.cons_append, List.cons.injEq, true_and] at h
          obtain ⟨hvalue, rfl, -⟩ := hunit.inj hunit' h
          exact ⟨Char.toNat_inj.1 hvalue, rfl⟩
      | pair hhigh _ _ hunit' =>
          simp only [List.cons_append, List.append_assoc, List.cons.injEq, true_and] at h
          exact absurd (hunit.inj hunit' h).1 (toNat_ne_surrogate c hhigh)
  | pair hhigh _ hvalue hunit hunit₂ =>
      cases hd with
      | plain _ hslash => exact absurd (List.cons.inj h).1.symm hslash
      | short hf =>
          exact absurd (List.cons.inj (List.cons.inj h).2).1.symm (shortEscapes_ne_u _ hf)
      | code hunit' =>
          simp only [List.cons_append, List.append_assoc, List.cons.injEq, true_and] at h
          exact absurd (hunit'.inj hunit h.symm).1 (toNat_ne_surrogate d hhigh)
      | pair _ _ hvalue' hunit' hunit₂' =>
          simp only [List.cons_append, List.append_assoc, List.cons.injEq, true_and] at h
          obtain ⟨hfirst, rfl, hrest⟩ := hunit.inj hunit' h
          simp only [List.cons.injEq, true_and] at hrest
          obtain ⟨hsecond, rfl, -⟩ := hunit₂.inj hunit₂' hrest
          have hsame : c.toNat = d.toNat := by omega
          exact ⟨Char.toNat_inj.1 hsame, rfl⟩

theorem Characters.inj {cs ds t u r r' : List Char} (hc : Characters cs t) (hd : Characters ds u)
    (h : t ++ '\x22' :: r = u ++ '\x22' :: r') : cs = ds ∧ t = u := by
  induction hc generalizing ds u with
  | nil =>
      cases hd with
      | nil => exact ⟨rfl, rfl⟩
      | cons hwritten =>
          obtain ⟨d, rest, rfl, hquote⟩ := hwritten.head
          exact absurd (List.cons.inj h).1.symm hquote
  | cons hwritten _ ih =>
      cases hd with
      | nil =>
          obtain ⟨d, rest, rfl, hquote⟩ := hwritten.head
          exact absurd (List.cons.inj h).1 hquote
      | cons hwritten' hd =>
          rw [List.append_assoc, List.append_assoc] at h
          obtain ⟨rfl, rfl⟩ := hwritten.inj hwritten' h
          obtain ⟨rfl, rfl⟩ := ih hd (List.append_cancel_left h)
          exact ⟨rfl, rfl⟩

/-! ## What follows a construct -/

def EndsNumeral (r : List Char) : Prop := ∀ c ∈ r.head?, inNumeral c = false

def isDelimiter (c : Char) : Bool := c == ',' || c == ':' || c == ']' || c == '\x7d'

def EndsItem (r : List Char) : Prop := ∀ c ∈ r.head?, isDelimiter c = true

theorem isSpace_of_isDelimiter {c : Char} (h : isDelimiter c = true) : isSpace c = false := by
  simp only [isDelimiter, Bool.or_eq_true, beq_iff_eq, or_assoc] at h
  rcases h with rfl | rfl | rfl | rfl <;> rfl

theorem inNumeral_of_isDelimiter {c : Char} (h : isDelimiter c = true) : inNumeral c = false := by
  simp only [isDelimiter, Bool.or_eq_true, beq_iff_eq, or_assoc] at h
  rcases h with rfl | rfl | rfl | rfl <;> rfl

theorem inNumeral_of_isSpace {c : Char} (h : isSpace c = true) : inNumeral c = false := by
  simp only [isSpace, Bool.or_eq_true, beq_iff_eq, or_assoc] at h
  rcases h with rfl | rfl | rfl | rfl <;> rfl

theorem EndsItem.endsNumeral {spaces r : List Char} (h : EndsItem r) (hspaces : Spaces spaces) :
    EndsNumeral (spaces ++ r) := by
  intro c hc
  cases spaces with
  | nil => exact inNumeral_of_isDelimiter (h c hc)
  | cons d spaces =>
      obtain rfl := Option.some.inj hc
      exact inNumeral_of_isSpace (hspaces _ (List.mem_cons_self ..))

/-- With what follows, a text tells where it ends and which item it denotes. -/
def Determined {α : Type} (follows : List Char → Prop) (item : α → List Char → Prop) (a : α) :
    Prop :=
  ∀ ⦃b t u r r'⦄, item a t → item b u → follows r → follows r' → t ++ r = u ++ r' → a = b ∧ t = u

/-- The texts of an item begin with blanks and then neither with a blank nor a delimiter. -/
def Begins {α : Type} (item : α → List Char → Prop) : Prop :=
  ∀ ⦃a t⦄, item a t → ∃ spaces c rest, t = spaces ++ c :: rest ∧ Spaces spaces ∧
    isSpace c = false ∧ isDelimiter c = false

def BeginsAtOnce {α : Type} (item : α → List Char → Prop) : Prop :=
  ∀ ⦃a t⦄, item a t → ∃ c rest, t = c :: rest ∧ isSpace c = false ∧ isDelimiter c = false

section

variable {α : Type} {item : α → List Char → Prop} {a : α}

theorem begins_padded (h : BeginsAtOnce item) : Begins (Padded item) := by
  rintro a _ ⟨hbefore, htext, -⟩
  obtain ⟨c, rest, rfl, hspace, hdelimiter⟩ := h htext
  exact ⟨_, c, _, rfl, hbefore, hspace, hdelimiter⟩

theorem determined_padded (hbegins : BeginsAtOnce item) (h : Determined EndsNumeral item a) :
    Determined EndsItem (Padded item) a := by
  rintro b _ _ r r' ⟨hbefore, htext, hafter⟩ ⟨hbefore', htext', hafter'⟩ hr hr' heq
  have hhead : ∀ {a : α} {t more : List Char}, item a t →
      ∀ c ∈ (t ++ more).head?, isSpace c = false := by
    intro a t more ht c hc
    obtain ⟨d, rest, rfl, hspace, -⟩ := hbegins ht
    exact Option.some.inj hc ▸ hspace
  have hfront : ∀ {r}, EndsItem r → ∀ c ∈ r.head?, isSpace c = false :=
    fun hr c hc => isSpace_of_isDelimiter (hr c hc)
  rw [List.append_assoc, List.append_assoc, List.append_assoc, List.append_assoc] at heq
  obtain ⟨rfl, hrest⟩ := runs_inj hbefore hbefore' (hhead htext) (hhead htext') heq
  obtain ⟨rfl, rfl⟩ := h htext htext' (hr.endsNumeral hafter) (hr'.endsNumeral hafter') hrest
  obtain ⟨rfl, -⟩ :=
    runs_inj hafter hafter' (hfront hr) (hfront hr') (List.append_cancel_left hrest)
  exact ⟨rfl, rfl⟩

theorem separated_inj {as bs : List α} {t u r r' : List Char} {close : Char}
    (hitem : ∀ a ∈ as, Determined EndsItem item a) (hclose : isDelimiter close = true)
    (hcomma : close ≠ ',') (ht : Separated item as t) (hu : Separated item bs u)
    (heq : t ++ close :: r = u ++ close :: r') : as = bs ∧ t = u := by
  have hends : ∀ {c : Char} {more : List Char}, isDelimiter c = true → EndsItem (c :: more) := by
    intro c more hc d hd
    exact Option.some.inj hd ▸ hc
  induction ht generalizing bs u with
  | one ha =>
      have ha' := hitem _ (List.mem_cons_self ..)
      cases hu with
      | one hb =>
          obtain ⟨rfl, rfl⟩ := ha' ha hb (hends hclose) (hends hclose) heq
          exact ⟨rfl, rfl⟩
      | more hb =>
          rw [List.append_assoc] at heq
          obtain ⟨-, rfl⟩ := ha' ha hb (hends hclose) (hends (by decide)) heq
          exact absurd (List.cons.inj (List.append_cancel_left heq)).1 hcomma
  | more ha _ ih =>
      have ha' := hitem _ (List.mem_cons_self ..)
      rw [List.append_assoc] at heq
      cases hu with
      | one hb =>
          obtain ⟨-, rfl⟩ := ha' ha hb (hends (by decide)) (hends hclose) heq
          exact absurd (List.cons.inj (List.append_cancel_left heq)).1.symm hcomma
      | more hb hbs =>
          rw [List.append_assoc] at heq
          obtain ⟨rfl, rfl⟩ := ha' ha hb (hends (by decide)) (hends (by decide)) heq
          have hrest := (List.cons.inj (List.append_cancel_left heq)).2
          obtain ⟨rfl, rfl⟩ := ih (fun a ha => hitem a (List.mem_cons_of_mem _ ha)) hbs hrest
          exact ⟨rfl, rfl⟩

theorem Separated.begins (hbegins : Begins item) {as : List α} {t : List Char}
    (h : Separated item as t) : ∃ spaces c rest, t = spaces ++ c :: rest ∧ Spaces spaces ∧
      isSpace c = false ∧ isDelimiter c = false := by
  cases h with
  | one ha => exact hbegins ha
  | more ha =>
      obtain ⟨spaces, c, rest, rfl, hspaces⟩ := hbegins ha
      exact ⟨spaces, c, _, List.append_assoc .., hspaces⟩

private theorem spaces_ne_separated (hbegins : Begins item) {as : List α} {t u r r' : List Char}
    {close : Char} (hclose : isDelimiter close = true) (ht : Spaces t) (hu : Separated item as u) :
    t ++ close :: r ≠ u ++ close :: r' := by
  intro heq
  obtain ⟨spaces, c, rest, rfl, hspaces, hspace, hdelimiter⟩ := hu.begins hbegins
  rw [List.append_assoc] at heq
  have hfront : ∀ d ∈ (close :: r).head?, isSpace d = false :=
    fun d hd => Option.some.inj hd ▸ isSpace_of_isDelimiter hclose
  have hfront' : ∀ d ∈ (c :: (rest ++ close :: r')).head?, isSpace d = false :=
    fun d hd => Option.some.inj hd ▸ hspace
  obtain ⟨-, hrest⟩ := runs_inj ht hspaces hfront hfront' heq
  rw [(List.cons.inj hrest).1, hdelimiter] at hclose
  exact absurd hclose nofun

/-- What stands between brackets is determined by the closing one. -/
theorem listed_inj (hbegins : Begins item) {as bs : List α} {t u r r' : List Char} {close : Char}
    (hitem : ∀ a ∈ as, Determined EndsItem item a) (hclose : isDelimiter close = true)
    (hcomma : close ≠ ',') (ht : Listed item as t) (hu : Listed item bs u)
    (heq : t ++ close :: r = u ++ close :: r') : as = bs ∧ t = u := by
  cases ht with
  | none ht =>
      cases hu with
      | none hu =>
          have hfront : ∀ {more : List Char}, ∀ c ∈ (close :: more).head?, isSpace c = false :=
            fun d hd => Option.some.inj hd ▸ isSpace_of_isDelimiter hclose
          obtain ⟨rfl, -⟩ := runs_inj ht hu hfront hfront heq
          exact ⟨rfl, rfl⟩
      | some hu => exact absurd heq (spaces_ne_separated hbegins hclose ht hu)
  | some ht =>
      cases hu with
      | none hu => exact absurd heq.symm (spaces_ne_separated hbegins hclose hu ht)
      | some hu => exact separated_inj hitem hclose hcomma ht hu heq

end

/-! ## Values -/

/-- What the first character of a value tells about it. -/
inductive Form where
  | null
  | bool (value : Bool)
  | number
  | string
  | array
  | object
  deriving DecidableEq

def Form.ofFirst (c : Char) : Form :=
  if c = 'n' then null
  else if c = 't' then bool true
  else if c = 'f' then bool false
  else if c = '\x22' then string
  else if c = '[' then array
  else if c = '\x7b' then object
  else number

def Value.form : Value → Form
  | null => .null
  | bool b => .bool b
  | number _ => .number
  | string _ => .string
  | array _ => .array
  | object _ => .object

theorem Denotes.begins {v : Value} {t : List Char} (h : Denotes v t) :
    ∃ c rest, t = c :: rest ∧ isSpace c = false ∧ isDelimiter c = false ∧
      Form.ofFirst c = v.form := by
  cases h with
  | null => exact ⟨'n', _, rfl, by decide⟩
  | trueWord => exact ⟨'t', _, rfl, by decide⟩
  | falseWord => exact ⟨'f', _, rfl, by decide⟩
  | string h =>
      cases h
      exact ⟨'\x22', _, rfl, rfl, rfl, rfl⟩
  | array => exact ⟨'[', _, rfl, rfl, rfl, rfl⟩
  | object => exact ⟨'\x7b', _, rfl, rfl, rfl, rfl⟩
  | number h =>
      obtain ⟨c, rest, rfl, hc⟩ := h.head
      refine ⟨c, rest, rfl, ?_⟩
      rcases hc with rfl | hdigit
      · exact ⟨rfl, rfl, rfl⟩
      · have hne : ∀ d : Char, d.isDigit = false → c ≠ d := by
          rintro d hd rfl
          exact absurd (hd.symm.trans hdigit) Bool.false_ne_true
        simp [isSpace, isDelimiter, Form.ofFirst, Value.form, hne]

theorem beginsAtOnce_denotes : BeginsAtOnce Denotes := by
  intro v t h
  obtain ⟨c, rest, rfl, hspace, hdelimiter, -⟩ := h.begins
  exact ⟨c, rest, rfl, hspace, hdelimiter⟩

theorem beginsAtOnce_quoted : BeginsAtOnce Quoted := by
  rintro s _ ⟨-⟩
  exact ⟨'\x22', _, rfl, by decide⟩

theorem determined_quoted (s : String) : Determined EndsNumeral Quoted s := by
  rintro s' _ _ r r' ⟨hbody⟩ ⟨hbody'⟩ - - heq
  simp only [List.cons_append, List.append_assoc, List.nil_append, List.cons.injEq,
    true_and] at heq
  obtain ⟨hs, rfl⟩ := hbody.inj hbody' heq
  exact ⟨String.toList_inj.1 hs, rfl⟩

theorem begins_member : Begins (Member Denotes) := by
  rintro _ _ ⟨hkey, -⟩
  obtain ⟨spaces, c, rest, rfl, hspaces⟩ := begins_padded beginsAtOnce_quoted hkey
  exact ⟨spaces, c, _, List.append_assoc .., hspaces⟩

theorem determined_member {k : String} {v : Value} (h : Determined EndsNumeral Denotes v) :
    Determined EndsItem (Member Denotes) (k, v) := by
  rintro _ _ _ r r' ⟨hkey, htext⟩ ⟨hkey', htext'⟩ hr hr' heq
  have hcolon : ∀ {more : List Char}, EndsItem (':' :: more) :=
    fun c hc => Option.some.inj hc ▸ rfl
  rw [List.append_assoc, List.append_assoc] at heq
  obtain ⟨rfl, rfl⟩ :=
    determined_padded beginsAtOnce_quoted (determined_quoted k) hkey hkey' hcolon hcolon heq
  have hrest := (List.cons.inj (List.append_cancel_left heq)).2
  obtain ⟨rfl, rfl⟩ := determined_padded beginsAtOnce_denotes h htext htext' hr hr' hrest
  exact ⟨rfl, rfl⟩

/-- Before what cannot belong to a numeral, a text denotes one value at most. -/
theorem determined_denotes (v : Value) : Determined EndsNumeral Denotes v := by
  induction hsize : sizeOf v using Nat.strongRecOn generalizing v with | _ n ih
  subst hsize
  intro w t u r r' ht hu hr hr' heq
  have hform : v.form = w.form := by
    obtain ⟨c, rest, rfl, -, -, hc⟩ := ht.begins
    obtain ⟨d, rest', rfl, -, -, hd⟩ := hu.begins
    rw [← hc, ← hd, (List.cons.inj heq).1]
  cases ht with
  | null =>
      cases w with
      | null => cases hu; exact ⟨rfl, rfl⟩
      | _ => cases hform
  | trueWord =>
      cases w with
      | bool b => cases hform; cases hu; exact ⟨rfl, rfl⟩
      | _ => cases hform
  | falseWord =>
      cases w with
      | bool b => cases hform; cases hu; exact ⟨rfl, rfl⟩
      | _ => cases hform
  | number ht =>
      cases w with
      | number =>
          obtain - | - | - | hu | - | - | - := hu
          obtain ⟨rfl, -⟩ :=
            runs_inj ht.forall_inNumeral hu.forall_inNumeral hr hr' heq
          exact ⟨rfl, rfl⟩
      | _ => cases hform
  | @string s _ ht =>
      cases w with
      | string =>
          obtain - | - | - | - | hu | - | - := hu
          obtain ⟨rfl, rfl⟩ := determined_quoted s ht hu hr hr' heq
          exact ⟨rfl, rfl⟩
      | _ => cases hform
  | @array vs text ht =>
      cases w with
      | array ws =>
          obtain - | - | - | - | - | hu | - := hu
          have hitem : ∀ a ∈ vs, Determined EndsItem (Padded Denotes) a := by
            intro a ha
            have hlt := List.sizeOf_lt_of_mem ha
            refine determined_padded beginsAtOnce_denotes (ih _ ?_ a rfl)
            rw [Value.array.sizeOf_spec]
            omega
          simp only [List.cons_append, List.append_assoc, List.nil_append, List.cons.injEq,
            true_and] at heq
          obtain ⟨rfl, rfl⟩ := listed_inj (begins_padded beginsAtOnce_denotes) hitem rfl
            (by decide) ht hu heq
          exact ⟨rfl, rfl⟩
      | _ => cases hform
  | @object fs text ht =>
      cases w with
      | object gs =>
          obtain - | - | - | - | - | - | hu := hu
          have hitem : ∀ a ∈ fs, Determined EndsItem (Member Denotes) a := by
            rintro ⟨k, a⟩ ha
            have hlt := List.sizeOf_lt_of_mem ha
            refine determined_member (ih _ ?_ a rfl)
            rw [Prod.mk.sizeOf_spec] at hlt
            rw [Value.object.sizeOf_spec]
            omega
          simp only [List.cons_append, List.append_assoc, List.nil_append, List.cons.injEq,
            true_and] at heq
          obtain ⟨rfl, rfl⟩ := listed_inj begins_member hitem rfl (by decide) ht hu heq
          exact ⟨rfl, rfl⟩
      | _ => cases hform

/-- A text denotes one value at most. -/
theorem Document.inj {v w : Value} {t : List Char} (hv : Document v t) (hw : Document w t) :
    v = w := by
  have hnone : EndsItem [] := fun c hc => absurd hc (Option.not_mem_none c)
  exact (determined_padded beginsAtOnce_denotes (determined_denotes v) hv hw hnone hnone rfl).1

end MiniJava.Json
