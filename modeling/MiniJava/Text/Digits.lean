/-!
# Digits in a radix

Reading a run of digits by place value. A character has one value in a radix, or
none.
-/

namespace MiniJava.Text

theorem isAlphanum_iff (c : Char) : c.isAlphanum = true ↔
    (48 ≤ c.toNat ∧ c.toNat ≤ 57) ∨ (65 ≤ c.toNat ∧ c.toNat ≤ 90) ∨
      (97 ≤ c.toNat ∧ c.toNat ≤ 122) := by
  have hbetween : ∀ low high : Char, low.val ≤ c.val ∧ c.val ≤ high.val ↔
      low.toNat ≤ c.toNat ∧ c.toNat ≤ high.toNat := by
    intro low high
    rw [UInt32.le_iff_toNat_le, UInt32.le_iff_toNat_le]
    rfl
  have hboth : ∀ low high : Char, (decide (low.val ≤ c.val) && decide (c.val ≤ high.val)) = true ↔
      low.toNat ≤ c.toNat ∧ c.toNat ≤ high.toNat := by
    intro low high
    rw [Bool.and_eq_true, decide_eq_true_iff, decide_eq_true_iff, hbetween]
  have hupper : c.isUpper = true ↔ 65 ≤ c.toNat ∧ c.toNat ≤ 90 :=
    decide_eq_true_iff.trans (hbetween 'A' 'Z')
  have hlower : c.isLower = true ↔ 97 ≤ c.toNat ∧ c.toNat ≤ 122 := hboth 'a' 'z'
  have hdigit : c.isDigit = true ↔ 48 ≤ c.toNat ∧ c.toNat ≤ 57 := hboth '0' '9'
  show (c.isUpper || c.isLower || c.isDigit) = true ↔ _
  rw [Bool.or_eq_true, Bool.or_eq_true, hupper, hlower, hdigit]
  omega

inductive Radix where
  | octal
  | decimal
  | hexadecimal
  deriving DecidableEq, Repr

namespace Radix

def base : Radix → Nat
  | octal => 8
  | decimal => 10
  | hexadecimal => 16

private def hexValue? (c : Char) : Option Nat :=
  if '0' ≤ c ∧ c ≤ '9' then some (c.toNat - 48)
  else if 'a' ≤ c ∧ c ≤ 'f' then some (c.toNat - 87)
  else if 'A' ≤ c ∧ c ≤ 'F' then some (c.toNat - 55)
  else none

def value? (r : Radix) (c : Char) : Option Nat :=
  (hexValue? c).filter (· < r.base)

def isDigit (r : Radix) (c : Char) : Bool :=
  (r.value? c).isSome

theorem isDigit_decimal {c : Char} (h : c.isDigit = true) : decimal.isDigit c = true := by
  simp only [Char.isDigit, Bool.and_eq_true, decide_eq_true_eq] at h
  obtain ⟨hlow, hhigh⟩ := h
  have hbound : c.toNat - 48 < 10 := by
    have : c.toNat ≤ 57 := UInt32.le_iff_toNat_le.1 hhigh
    omega
  have hvalue : hexValue? c = some (c.toNat - 48) := if_pos ⟨hlow, hhigh⟩
  simp [isDigit, value?, hvalue, base, hbound]

theorem isDigit_of_decimal {c : Char} (h : decimal.isDigit c = true) : c.isDigit = true := by
  obtain ⟨n, hn⟩ := Option.isSome_iff_exists.1 h
  obtain ⟨hvalue, hbound⟩ := Option.filter_eq_some_iff.1 hn
  have hten : n < 10 := of_decide_eq_true hbound
  unfold hexValue? at hvalue
  split at hvalue
  · next hc => exact Bool.and_eq_true_iff.2 ⟨decide_eq_true hc.1, decide_eq_true hc.2⟩
  · split at hvalue
    · next hc =>
      have : 97 ≤ c.toNat := UInt32.le_iff_toNat_le.1 hc.1
      have := Option.some.inj hvalue
      omega
    · split at hvalue
      · next hc =>
        have : 65 ≤ c.toNat := UInt32.le_iff_toNat_le.1 hc.1
        have := Option.some.inj hvalue
        omega
      · exact absurd hvalue (by simp)

theorem isDigit_mono {r s : Radix} (h : r.base ≤ s.base) {c : Char} (hc : r.isDigit c = true) :
    s.isDigit c = true := by
  obtain ⟨n, hn⟩ := Option.isSome_iff_exists.1 hc
  obtain ⟨hvalue, hbound⟩ := Option.filter_eq_some_iff.1 hn
  have hlt : n < s.base := Nat.lt_of_lt_of_le (of_decide_eq_true hbound) h
  exact Option.isSome_iff_exists.2 ⟨n, Option.filter_eq_some_iff.2 ⟨hvalue, decide_eq_true hlt⟩⟩

theorem isAlphanum_of_isDigit {r : Radix} {c : Char} (h : r.isDigit c = true) :
    c.isAlphanum = true := by
  obtain ⟨n, hn⟩ := Option.isSome_iff_exists.1 h
  have hvalue : hexValue? c = some n := (Option.filter_eq_some_iff.1 hn).1
  have hletter : ∀ {low high : Char}, low ≤ c ∧ c ≤ high →
      low.val.toNat ≤ c.val.toNat ∧ c.val.toNat ≤ high.val.toNat := fun hc =>
    ⟨UInt32.le_iff_toNat_le.1 hc.1, UInt32.le_iff_toNat_le.1 hc.2⟩
  rw [isAlphanum_iff]
  unfold hexValue? at hvalue
  split at hvalue
  · next hc => exact .inl (hletter hc)
  · split at hvalue
    · next hc =>
      have := hletter hc
      exact .inr (.inr ⟨this.1, Nat.le_trans this.2 (by decide)⟩)
    · split at hvalue
      · next hc =>
        have := hletter hc
        exact .inr (.inl ⟨this.1, Nat.le_trans this.2 (by decide)⟩)
      · exact absurd hvalue (by simp)

/-- The number that a run of digits writes, the first digit weighing most. -/
def number (r : Radix) (digits : List Char) : Nat :=
  digits.foldl (fun n c => n * r.base + (r.value? c).getD 0) 0

end Radix

end MiniJava.Text
