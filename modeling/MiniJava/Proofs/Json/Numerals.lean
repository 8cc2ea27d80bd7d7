import MiniJava.Proofs.Json.Grammar
import MiniJava.Proofs.Lexical.Boundary
import MiniJava.Proofs.Numeric.Nearest
import Mathlib.Data.List.TakeWhile
import Mathlib.Tactic.IntervalCases
/-!
# Numbers as numerals

Whole numbers and finite values are written as JSON numerals, and different values of one sign
are written differently: what the text of a value reads as is its shortest decimal.
-/

namespace MiniJava

open MiniJava.Text

namespace Json

/-! ## Whole numbers -/

theorem digits_toDigits (n : Nat) : Digits (Nat.toDigits 10 n) :=
  ⟨Nat.toDigits_ne_nil, fun _ hc => Nat.isDigit_of_mem_toDigits (by decide) (by decide) hc⟩

theorem head_toDigits (n : Nat) : (Nat.toDigits 10 n).head? = some '0' ↔ n = 0 := by
  induction n using Nat.strongRecOn with
  | _ n ih =>
      rw [Nat.toDigits_eq_if (by decide)]
      split
      · rw [List.head?_cons, Option.some.injEq, Nat.digitChar_eq_zero]
      · next hten =>
        rw [List.head?_append_of_ne_nil _ Nat.toDigits_ne_nil, ih (n / 10) (by omega)]
        omega

theorem digits_zero : Digits ['0'] := ⟨List.cons_ne_nil _ _, List.forall_mem_singleton.2 rfl⟩

theorem whole_zero : Whole ['0'] := ⟨digits_zero, fun _ => rfl⟩

theorem whole_toDigits (n : Nat) : Whole (Nat.toDigits 10 n) := by
  refine ⟨digits_toDigits n, fun hhead => ?_⟩
  rw [(head_toDigits n).1 hhead, Nat.toDigits_zero]

theorem toList_toString_int (n : Int) :
    (toString n).toList =
      if 0 ≤ n then Nat.toDigits 10 n.toNat else '-' :: Nat.toDigits 10 (-n).toNat := by
  rw [Int.toString_eq_repr, Int.repr_eq_if]
  split
  · rw [Nat.repr_eq_ofList_toDigits, String.toList_ofList]
  · simp [Nat.repr_eq_ofList_toDigits]

theorem numeral_int (n : Int) : Numeral (toString n).toList := by
  have hplain : ∀ {minus m}, minus = [] ∨ minus = ['-'] →
      Numeral (minus ++ Nat.toDigits 10 m) := by
    intro minus m hminus
    have hnumeral := Numeral.intro hminus (whole_toDigits m) .none .none
    rwa [List.append_nil, List.append_nil] at hnumeral
  rw [toList_toString_int]
  split
  · exact hplain (.inl rfl)
  · exact hplain (.inr rfl)

end Json

namespace Numeric

open Json

/-! ## Runs of digits -/

theorem exists_digitChar {c : Char} (h : c.isDigit = true) : ∃ n < 10, c = Nat.digitChar n := by
  simp only [Char.isDigit, Bool.and_eq_true, decide_eq_true_eq] at h
  have hlow : 48 ≤ c.toNat := UInt32.le_iff_toNat_le.1 h.1
  have hhigh : c.toNat ≤ 57 := UInt32.le_iff_toNat_le.1 h.2
  refine ⟨c.toNat - 48, by omega, ?_⟩
  rw [← Char.ofNat_toNat c]
  generalize c.toNat = n at hlow hhigh
  interval_cases n <;> decide

theorem decimal_digitChar : ∀ n < 10, Radix.decimal.value? (Nat.digitChar n) = some n := by decide

theorem number_eq_ofDigitChars {ds : List Char} (h : ∀ c ∈ ds, c.isDigit = true) :
    Radix.decimal.number ds = Nat.ofDigitChars 10 ds 0 := by
  have hfold : ∀ (ds : List Char), (∀ c ∈ ds, c.isDigit = true) → ∀ init : Nat,
      ds.foldl (fun n c => n * Radix.decimal.base + (Radix.decimal.value? c).getD 0) init =
        Nat.ofDigitChars 10 ds init := by
    intro ds
    induction ds with
    | nil => exact fun _ _ => Nat.ofDigitChars_nil.symm
    | cons c ds ih =>
        intro h init
        obtain ⟨hc, hds⟩ := List.forall_mem_cons.1 h
        obtain ⟨n, hn, rfl⟩ := exists_digitChar hc
        rw [List.foldl_cons, ih hds, Nat.ofDigitChars_cons_digitChar_of_lt_ten hn,
          decimal_digitChar n hn, Option.getD_some, Radix.base, Nat.mul_comm init]
  exact hfold ds h 0

theorem ofDigitChars_append {ds es : List Char} :
    Nat.ofDigitChars 10 (ds ++ es) 0 =
      Nat.ofDigitChars 10 ds 0 * 10 ^ es.length + Nat.ofDigitChars 10 es 0 := by
  rw [Nat.ofDigitChars_append, Nat.ofDigitChars_eq_ofDigitChars_zero, Nat.mul_comm]

theorem ofDigitChars_zeros (k : Nat) : Nat.ofDigitChars 10 (List.replicate k '0') 0 = 0 := by
  rw [Nat.ofDigitChars_replicate_zero, Nat.mul_zero]

namespace Decimal

/-! ## The figures of a decimal -/

theorem exists_keptFigures {d : Decimal} (h : 0 < d.digits) :
    ∃ k, d.figures = d.keptFigures ++ List.replicate k '0' ∧ Digits d.keptFigures ∧
      d.keptFigures.head? ≠ some '0' := by
  have hdigits := digits_toDigits d.digits
  have hhead : d.figures.head? ≠ some '0' := fun h0 => h.ne' ((head_toDigits d.digits).1 h0)
  let zeros := d.figures.reverse.takeWhile (· == '0')
  let kept := (d.figures.reverse.dropWhile (· == '0')).reverse
  have hzeros : zeros = List.replicate zeros.length '0' :=
    List.eq_replicate_of_mem fun c hc => by
      have hzero := List.mem_takeWhile_imp hc
      exact beq_iff_eq.1 hzero
  have hsplit : d.figures = kept ++ List.replicate zeros.length '0' := by
    have hreverse := congrArg List.reverse
      (List.takeWhile_append_dropWhile (p := (· == '0')) (l := d.figures.reverse))
    rw [List.reverse_append, List.reverse_reverse] at hreverse
    have hback : zeros.reverse = List.replicate zeros.length '0' := by
      rw [hzeros, List.reverse_replicate, List.length_replicate]
    rw [← hback]
    exact hreverse.symm
  have hne : kept ≠ [] := by
    intro hnil
    rw [hnil, List.nil_append] at hsplit
    cases hlength : zeros.length with
    | zero =>
        rw [hlength] at hsplit
        exact hdigits.1 hsplit
    | succ n =>
        rw [hlength] at hsplit
        exact hhead (by rw [hsplit]; rfl)
  have hkept : d.keptFigures = kept := by
    unfold keptFigures
    split
    · next hnil => exact absurd hnil hne
    · rfl
  rw [hkept]
  refine ⟨zeros.length, hsplit, ⟨hne, fun c hc => hdigits.2 c ?_⟩, ?_⟩
  · show c ∈ d.figures
    rw [hsplit]
    exact List.mem_append_left _ hc
  · rwa [hsplit, List.head?_append_of_ne_nil _ hne] at hhead

/-- A decimal is the number of its kept figures, as many places up as its point stands behind
them. -/
theorem value_eq {d : Decimal} (h : 0 < d.digits) :
    d.value = Nat.ofDigitChars 10 d.keptFigures 0 * 10 ^ (d.point - d.keptFigures.length) := by
  obtain ⟨k, hfigures, -, -⟩ := exists_keptFigures h
  have hdigits : d.digits = Nat.ofDigitChars 10 d.keptFigures 0 * 10 ^ k := by
    have hall : Nat.ofDigitChars 10 d.figures 0 = d.digits := Nat.ofDigitChars_ten_toDigits
    rw [hfigures, ofDigitChars_append, ofDigitChars_zeros, List.length_replicate,
      Nat.add_zero] at hall
    exact hall.symm
  have hpoint : d.point - d.keptFigures.length = k + d.scale := by
    rw [point, hfigures, List.length_append, List.length_replicate]
    push_cast
    ring
  rw [hpoint, value, hdigits, zpow_add₀ (by norm_num), zpow_natCast]
  push_cast
  ring

/-! ## Written decimals -/

def fractionText (part : List Char) : List Char := if part = [] then [] else '.' :: part

/-- A text of digits, possibly a fraction and possibly an exponent, that writes a number. -/
def Writes (v : ℚ) (text : List Char) : Prop :=
  ∃ (whole part tail : List Char) (e : ℤ), text = whole ++ (fractionText part ++ tail) ∧
    Whole whole ∧ (∀ c ∈ part, c.isDigit = true) ∧
    (tail = [] ∧ e = 0 ∨ tail = 'e' :: (toString e).toList) ∧
    v = Nat.ofDigitChars 10 (whole ++ part) 0 * 10 ^ (e - part.length)

theorem positional_eq (d : Decimal) :
    d.positional =
      if d.point ≤ 0 then '0' :: '.' :: (List.replicate (-d.point).toNat '0' ++ d.keptFigures)
      else if d.point < d.keptFigures.length then
        d.keptFigures.take d.point.toNat ++ '.' :: d.keptFigures.drop d.point.toNat
      else
        d.keptFigures ++ List.replicate (d.point - d.keptFigures.length).toNat '0' ++ ['.', '0'] :=
  rfl

theorem fractionText_of_ne_nil {part : List Char} (h : part ≠ []) :
    fractionText part = '.' :: part := if_neg h

private theorem isDigit_of_zeros {k : Nat} : ∀ c ∈ List.replicate k '0', c.isDigit = true := by
  intro c hc
  rw [List.eq_of_mem_replicate hc]
  rfl

private theorem whole_of_head {ds : List Char} (h : Digits ds) (hhead : ds.head? ≠ some '0') :
    Whole ds := ⟨h, fun h0 => absurd h0 hhead⟩

theorem writes_positional {d : Decimal} (h : 0 < d.digits) : Writes d.value d.positional := by
  obtain ⟨-, -, hkept, hhead⟩ := exists_keptFigures h
  rw [value_eq h, positional_eq]
  generalize d.keptFigures = kept at hkept hhead
  split
  · next hpoint =>
    refine ⟨['0'], List.replicate (-d.point).toNat '0' ++ kept, [], 0, ?_, ?_, ?_, .inl ⟨rfl, rfl⟩,
      ?_⟩
    · rw [fractionText_of_ne_nil (List.append_ne_nil_of_right_ne_nil _ hkept.1), List.append_nil]
      rfl
    · exact whole_zero
    · exact List.forall_mem_append.2 ⟨isDigit_of_zeros, hkept.2⟩
    · have hzeros : ['0'] ++ (List.replicate (-d.point).toNat '0' ++ kept) =
          List.replicate ((-d.point).toNat + 1) '0' ++ kept := rfl
      have hlength : (0 : ℤ) - (List.replicate (-d.point).toNat '0' ++ kept).length =
          d.point - kept.length := by
        rw [List.length_append, List.length_replicate]
        omega
      rw [hlength, hzeros, ofDigitChars_append, ofDigitChars_zeros, Nat.zero_mul, Nat.zero_add]
  split
  · next hpoint hwithin =>
    have hsplit := List.take_append_drop d.point.toNat kept
    have hpart : kept.drop d.point.toNat ≠ [] := by
      rw [ne_eq, List.drop_eq_nil_iff]
      omega
    have hwhole : kept.take d.point.toNat ≠ [] := by
      rw [ne_eq, List.take_eq_nil_iff]
      rintro (hnone | hnil)
      · omega
      · exact hkept.1 hnil
    refine ⟨kept.take d.point.toNat, kept.drop d.point.toNat, [], 0, ?_, ?_, ?_,
      .inl ⟨rfl, rfl⟩, ?_⟩
    · rw [fractionText_of_ne_nil hpart, List.append_nil]
    · refine whole_of_head ⟨hwhole, fun c hc => hkept.2 c (List.mem_of_mem_take hc)⟩ ?_
      rwa [← hsplit, List.head?_append_of_ne_nil _ hwhole] at hhead
    · exact fun c hc => hkept.2 c (List.mem_of_mem_drop hc)
    · have hlength : (0 : ℤ) - (kept.drop d.point.toNat).length = d.point - kept.length := by
        rw [List.length_drop]
        omega
      rw [hsplit, hlength]
  · next hpoint hbeyond =>
    let n := (d.point - kept.length).toNat
    refine ⟨kept ++ List.replicate n '0', ['0'], [], 0, rfl, ?_, digits_zero.2, .inl ⟨rfl, rfl⟩, ?_⟩
    · refine whole_of_head ⟨List.append_ne_nil_of_left_ne_nil hkept.1 _, ?_⟩ ?_
      · exact List.forall_mem_append.2 ⟨hkept.2, isDigit_of_zeros⟩
      · rwa [List.head?_append_of_ne_nil _ hkept.1]
    · have hn : d.point - kept.length = (n : ℤ) := by omega
      have hzero : Nat.ofDigitChars 10 ['0'] 0 = 0 := rfl
      rw [ofDigitChars_append, ofDigitChars_append, ofDigitChars_zeros, hzero, hn,
        List.length_replicate, zpow_natCast]
      push_cast
      norm_num
      ring

theorem writes_scientific {d : Decimal} (h : 0 < d.digits) : Writes d.value d.scientific := by
  obtain ⟨-, -, hkept, hhead⟩ := exists_keptFigures h
  rw [value_eq h]
  unfold scientific
  dsimp only
  generalize d.keptFigures = kept at hkept hhead
  cases kept with
  | nil => exact absurd rfl hkept.1
  | cons f fs =>
      obtain ⟨hf, hfs⟩ := List.forall_mem_cons.1 hkept.2
      refine ⟨[f], fs, 'e' :: (toString (d.point - 1)).toList, d.point - 1, ?_, ?_, hfs,
        .inr rfl, ?_⟩
      · cases fs <;> rfl
      · exact whole_of_head ⟨List.cons_ne_nil _ _, List.forall_mem_singleton.2 hf⟩ hhead
      · have hlength : d.point - (f :: fs).length = d.point - 1 - fs.length := by
          rw [List.length_cons]
          push_cast
          ring
        rw [hlength]
        rfl

/-! ## Reading decimals back -/

theorem exponentOf_digits {ds : List Char} (h : Digits ds) :
    exponentOf? ds = some (Nat.ofDigitChars 10 ds 0 : ℤ) := by
  have hsome : (!ds.isEmpty && ds.all Char.isDigit) = true := by
    simpa using ⟨h.1, h.2⟩
  have hread : ∀ sign : Char, sign.isDigit = false → ∀ rest, ds ≠ sign :: rest := by
    rintro sign hsign rest rfl
    exact absurd (hsign.symm.trans (h.2 sign (List.mem_cons_self ..))) Bool.false_ne_true
  unfold exponentOf?
  dsimp only
  split
  · exact absurd rfl (hread '+' rfl _)
  · exact absurd rfl (hread '-' rfl _)
  · rw [if_pos hsome, Option.map_some, number_eq_ofDigitChars h.2]
    rfl

theorem exponentOf_minus {ds : List Char} (h : Digits ds) :
    exponentOf? ('-' :: ds) = some (-(Nat.ofDigitChars 10 ds 0 : ℤ)) := by
  have hsome : (!ds.isEmpty && ds.all Char.isDigit) = true := by
    simpa using ⟨h.1, h.2⟩
  simp only [exponentOf?]
  rw [if_pos hsome, number_eq_ofDigitChars h.2]
  rfl

theorem exponentOf_plus {ds : List Char} (h : Digits ds) :
    exponentOf? ('+' :: ds) = some (Nat.ofDigitChars 10 ds 0 : ℤ) := by
  have hsome : (!ds.isEmpty && ds.all Char.isDigit) = true := by
    simpa using ⟨h.1, h.2⟩
  simp only [exponentOf?]
  rw [if_pos hsome, number_eq_ofDigitChars h.2]
  rfl

theorem exponentOf_toString (e : ℤ) : exponentOf? (toString e).toList = some e := by
  rw [toList_toString_int]
  split
  · next he =>
    rw [exponentOf_digits (digits_toDigits _), Nat.ofDigitChars_ten_toDigits]
    exact congrArg some (Int.toNat_of_nonneg he)
  · next he =>
    rw [exponentOf_minus (digits_toDigits _), Nat.ofDigitChars_ten_toDigits]
    congr 1
    omega

theorem toList_toString_inj {m n : ℤ} (h : (toString m).toList = (toString n).toList) : m = n := by
  have hread := exponentOf_toString m
  rw [h, exponentOf_toString] at hread
  exact (Option.some.inj hread).symm

variable {v : ℚ} {text : List Char}

/-- A written number is a numeral, with a sign before it too. -/
theorem Writes.numeral {minus : List Char} (h : Writes v text)
    (hminus : minus = [] ∨ minus = ['-']) : Numeral (minus ++ text) := by
  obtain ⟨whole, part, tail, e, rfl, hwhole, hpart, htail, -⟩ := h
  refine .intro hminus hwhole ?_ ?_
  · unfold fractionText
    split
    · exact .none
    · next hne => exact .digits ⟨hne, hpart⟩
  · rcases htail with ⟨rfl, -⟩ | rfl
    · exact .none
    · rw [toList_toString_int]
      split
      · exact .digits (.inl rfl) (.inl rfl) (digits_toDigits _)
      · exact .digits (.inl rfl) (.inr (.inr rfl)) (digits_toDigits _)

theorem ofText?_parts {whole part tail : List Char} {e : ℤ} (hwhole : Digits whole)
    (hpart : ∀ c ∈ part, c.isDigit = true)
    (htail : tail = [] ∧ e = 0 ∨ ∃ sum, tail = 'e' :: sum ∧ exponentOf? sum = some e) :
    ofText? (whole ++ (fractionText part ++ tail)) =
      some ⟨Radix.decimal.number (whole ++ part), e - part.length⟩ := by
  have hspan : ∀ {run rest : List Char}, (∀ c ∈ run, c.isDigit = true) →
      (∀ c ∈ rest.head?, c.isDigit = false) →
      (run ++ rest).takeWhile Char.isDigit = run ∧ (run ++ rest).dropWhile Char.isDigit = rest := by
    intro run rest hrun hrest
    have htake := Lexical.takeWhile_append_of_front hrun hrest
    refine ⟨htake, ?_⟩
    have hsplit := List.takeWhile_append_dropWhile (p := Char.isDigit) (l := run ++ rest)
    rw [htake] at hsplit
    exact List.append_cancel_left hsplit
  have htail' : ∀ c ∈ tail.head?, c.isDigit = false := by
    rcases htail with ⟨rfl, -⟩ | ⟨_, rfl, -⟩
    · exact fun c hc => absurd hc (Option.not_mem_none c)
    · exact fun c hc => Option.some.inj hc ▸ rfl
  have hfront : ∀ c ∈ (fractionText part ++ tail).head?, c.isDigit = false := by
    unfold fractionText
    split
    · exact htail'
    · exact fun c hc => Option.some.inj hc ▸ rfl
  have hempty : (whole.isEmpty && part.isEmpty) = false := by
    simpa using fun h => absurd h hwhole.1
  -- With the runs told apart, the exponent alone decides.
  have hread : ∀ exponent : Option ℤ, exponent = some e →
      (if whole.isEmpty && part.isEmpty then none
        else exponent.map fun e =>
          (⟨Radix.decimal.number (whole ++ part), e - part.length⟩ : Decimal)) =
        some ⟨Radix.decimal.number (whole ++ part), e - part.length⟩ := by
    rintro _ rfl
    rw [hempty]
    rfl
  unfold ofText?
  dsimp only
  rw [(hspan hwhole.2 hfront).1, (hspan hwhole.2 hfront).2]
  by_cases hnone : part = []
  · subst hnone
    rcases htail with ⟨rfl, rfl⟩ | ⟨_, rfl, hsum⟩
    · exact hread _ rfl
    · exact hread _ hsum
  · rw [fractionText_of_ne_nil hnone, List.cons_append]
    simp only [(hspan hpart htail').1, (hspan hpart htail').2]
    rcases htail with ⟨rfl, rfl⟩ | ⟨_, rfl, hsum⟩
    · exact hread _ rfl
    · exact hread _ hsum

/-- What writes a number reads as it. -/
theorem Writes.read (h : Writes v text) : ∃ d, ofText? text = some d ∧ d.value = v := by
  obtain ⟨whole, part, tail, e, rfl, hwhole, hpart, htail, rfl⟩ := h
  have hdigits : ∀ c ∈ whole ++ part, c.isDigit = true :=
    List.forall_mem_append.2 ⟨hwhole.1.2, hpart⟩
  have htail' : tail = [] ∧ e = 0 ∨ ∃ sum, tail = 'e' :: sum ∧ exponentOf? sum = some e :=
    htail.imp_right fun h => ⟨_, h, exponentOf_toString e⟩
  refine ⟨_, ofText?_parts hwhole.1 hpart htail', ?_⟩
  rw [value, number_eq_ofDigitChars hdigits]

/-- A text writes one number at most. -/
theorem Writes.inj {w : ℚ} (hv : Writes v text) (hw : Writes w text) : v = w := by
  obtain ⟨d, hd, rfl⟩ := hv.read
  obtain ⟨e, he, rfl⟩ := hw.read
  rw [Option.some.inj (hd.symm.trans he)]

end Decimal

/-! ## Written values -/

namespace Binary64

open Decimal

def printed (x : Binary64) : ℚ := if x.significand = 0 then 0 else x.shortest.value

theorem shortest_value_pos {x : Binary64} (h : 0 < x.significand) : 0 < x.shortest.value := by
  have hlow : 0 < x.roundingInterval.low := by
    unfold roundingInterval
    dsimp only
    split <;> omega
  exact (mul_pos (Nat.cast_pos.2 hlow) x.quarter_pos).trans_le (rounds_shortest h).bounds.1

theorem shortest_digits_pos {x : Binary64} (h : 0 < x.significand) : 0 < x.shortest.digits := by
  have hvalue := shortest_value_pos h
  refine Nat.pos_of_ne_zero fun hzero => ?_
  rw [Decimal.value, hzero, Nat.cast_zero, zero_mul] at hvalue
  exact lt_irrefl 0 hvalue

theorem magnitude_of_significand {x : Binary64} (h : x.significand = 0) :
    x.exponent = 0 ∧ x.fraction = 0 := by
  have htwo : twoPow 52 = 4503599627370496 := by decide
  unfold significand at h
  split at h <;> omega

def Printable (x : Binary64) : Prop := x.isFinite = true ∧ x.negative = false

/-- A finite value is written behind its sign. -/
theorem exists_writes {x : Binary64} (hfinite : x.isFinite = true) :
    ∃ t, x.text = (if x.negative then ['-'] else []) ++ t ∧ Writes x.printed t := by
  have hnumber : x.isNaN = false := by
    simp only [isFinite, bne_iff_ne, ne_eq] at hfinite
    simp [isNaN, hfinite]
  unfold text printed
  simp only [hnumber, hfinite, Bool.not_true, Bool.false_eq_true, if_false]
  split
  · have hnone : Nat.ofDigitChars 10 ['0', '0'] 0 = 0 := rfl
    refine ⟨_, rfl, ['0'], ['0'], [], 0, rfl, whole_zero, digits_zero.2, .inl ⟨rfl, rfl⟩, ?_⟩
    rw [List.singleton_append, hnone, Nat.cast_zero, zero_mul]
  · next hzero =>
    have hdigits := shortest_digits_pos (Nat.pos_of_ne_zero hzero)
    split
    · exact ⟨_, rfl, writes_positional hdigits⟩
    · exact ⟨_, rfl, writes_scientific hdigits⟩

theorem numeral_of_isFinite {x : Binary64} (h : x.isFinite = true) : Numeral x.text := by
  obtain ⟨t, htext, hwrites⟩ := exists_writes h
  rw [htext]
  refine hwrites.numeral ?_
  split
  · exact .inr rfl
  · exact .inl rfl

theorem Printable.writes_text {x : Binary64} (h : x.Printable) : Writes x.printed x.text := by
  obtain ⟨hfinite, hsign⟩ := h
  obtain ⟨t, htext, hwrites⟩ := exists_writes hfinite
  rw [htext, hsign]
  exact hwrites

theorem Printable.numeral_text {x : Binary64} (h : x.Printable) : Numeral x.text :=
  numeral_of_isFinite h.1

/-- Different values are written differently. -/
theorem Printable.text_inj {x y : Binary64} (hx : x.Printable) (hy : y.Printable)
    (h : x.text = y.text) : x = y := by
  have hprinted : x.printed = y.printed := by
    have hwrites := hx.writes_text
    rw [h] at hwrites
    exact hwrites.inj hy.writes_text
  have hmagnitude : x.exponent = y.exponent ∧ x.fraction = y.fraction := by
    unfold printed at hprinted
    split at hprinted
    · next hxzero =>
      split at hprinted
      · next hyzero =>
        obtain ⟨hexponent, hfraction⟩ := magnitude_of_significand hxzero
        obtain ⟨hexponent', hfraction'⟩ := magnitude_of_significand hyzero
        exact ⟨hexponent.trans hexponent'.symm, hfraction.trans hfraction'.symm⟩
      · next hyzero =>
        exact absurd hprinted (shortest_value_pos (Nat.pos_of_ne_zero hyzero)).ne
    · next hxzero =>
      have hxpos := Nat.pos_of_ne_zero hxzero
      split at hprinted
      · exact absurd hprinted (shortest_value_pos hxpos).ne'
      · next hyzero => exact magnitude_eq_of_shortest hxpos (Nat.pos_of_ne_zero hyzero) hprinted
  have hsign : x.negative = y.negative := hx.2.trans hy.2.symm
  cases x
  cases y
  simp only [mk.injEq]
  exact ⟨hsign, hmagnitude⟩

end Binary64

end Numeric

end MiniJava
