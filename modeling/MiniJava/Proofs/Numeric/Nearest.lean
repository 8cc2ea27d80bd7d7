import MiniJava.Numeric.Shortest
import Mathlib.Algebra.Order.Field.Power
import Mathlib.Data.Rat.Cast.Order
import Mathlib.Tactic.FieldSimp
import Mathlib.Tactic.Linarith
import Mathlib.Tactic.Ring
/-!
# The decimals that round to a value

The rounding intervals of distinct positive values do not meet, and the shortest decimal of a
value lies in its own.  So a decimal is the shortest one of one value at most.
-/

namespace MiniJava.Numeric

def Decimal.value (d : Decimal) : ℚ := d.digits * 10 ^ d.scale

theorem zpow_mul_pow_toNat {b : ℚ} (hb : b ≠ 0) (k : ℤ) : b ^ k * b ^ (-k).toNat = b ^ k.toNat := by
  rcases le_total 0 k with hk | hk
  · have hneg : (-k).toNat = 0 := by omega
    have hpos : (k.toNat : ℤ) = k := Int.toNat_of_nonneg hk
    rw [hneg, pow_zero, mul_one, ← zpow_natCast b k.toNat, hpos]
  · have hpos : k.toNat = 0 := by omega
    have hneg : ((-k).toNat : ℤ) = -k := Int.toNat_of_nonneg (by omega)
    rw [hpos, pow_zero, ← zpow_natCast b (-k).toNat, hneg, ← zpow_add₀ hb, add_neg_cancel,
      zpow_zero]

namespace Binary64

def quarter (x : Binary64) : ℚ := 2 ^ (x.scale - 2)

theorem quarter_pos (x : Binary64) : 0 < x.quarter := zpow_pos (by norm_num) _

/-- A number lies between the ends of the rounding interval, and at neither of them if they do
not belong to it. -/
def Rounds (x : Binary64) (v : ℚ) : Prop :=
  if x.roundingInterval.closed then
    x.roundingInterval.low * x.quarter ≤ v ∧ v ≤ x.roundingInterval.high * x.quarter
  else x.roundingInterval.low * x.quarter < v ∧ v < x.roundingInterval.high * x.quarter

theorem Rounds.bounds {x : Binary64} {v : ℚ} (h : x.Rounds v) :
    x.roundingInterval.low * x.quarter ≤ v ∧ v ≤ x.roundingInterval.high * x.quarter := by
  unfold Rounds at h
  split at h
  · exact h
  · exact ⟨h.1.le, h.2.le⟩

theorem Rounds.closed {x : Binary64} {v : ℚ} (h : x.Rounds v)
    (hend : v = x.roundingInterval.low * x.quarter ∨ v = x.roundingInterval.high * x.quarter) :
    x.roundingInterval.closed = true := by
  unfold Rounds at h
  split at h
  · next hclosed => exact hclosed
  · rcases hend with rfl | rfl
    · exact absurd h.1 (lt_irrefl _)
    · exact absurd h.2 (lt_irrefl _)

/-! ## Points of a decimal grid -/

theorem cast_twoPow (n : ℕ) : ((twoPow n : ℕ) : ℚ) = 2 ^ n := by
  rw [twoPow, Nat.pow_eq, Nat.cast_pow, Nat.cast_ofNat]

theorem cast_tenPow (n : ℕ) : ((tenPow n : ℕ) : ℚ) = 10 ^ n := by
  rw [tenPow, Nat.pow_eq, Nat.cast_pow, Nat.cast_ofNat]

/-- Scaled alike, quarters and points of a grid are whole numbers. -/
theorem exists_scaled (x : Binary64) (t : ℤ) :
    ∃ c : ℚ, 0 < c ∧
      (∀ a : ℕ, a * x.quarter * c =
        ((a * (twoPow (x.scale - 2).toNat * tenPow (-t).toNat) : ℕ) : ℚ)) ∧
      ∀ d : ℕ, d * 10 ^ t * c =
        ((d * (tenPow t.toNat * twoPow (2 - x.scale).toNat) : ℕ) : ℚ) := by
  have htwo := zpow_mul_pow_toNat (b := 2) (by norm_num) (x.scale - 2)
  have hten := zpow_mul_pow_toNat (b := 10) (by norm_num) t
  rw [neg_sub] at htwo
  refine ⟨2 ^ (2 - x.scale).toNat * 10 ^ (-t).toNat, by positivity, fun a => ?_, fun d => ?_⟩
  · rw [Nat.cast_mul, Nat.cast_mul, cast_twoPow, cast_tenPow, ← htwo, quarter]
    ring
  · rw [Nat.cast_mul, Nat.cast_mul, cast_twoPow, cast_tenPow, ← hten]
    ring

theorem rounds_of_onGrid {x : Binary64} {t : ℤ} {d : Decimal} (h : x.onGrid? t = some d) :
    x.Rounds d.value := by
  obtain ⟨c, hc, hquarters, hpoints⟩ := x.exists_scaled t
  unfold onGrid? at h
  extract_lets i step quarter below inside nearer at h
  have hle : ∀ a e : ℕ, a * quarter ≤ e * step ↔ a * x.quarter ≤ e * 10 ^ t := by
    intro a e
    rw [← mul_le_mul_iff_left₀ hc, hquarters, hpoints, Nat.cast_le]
  have hge : ∀ a e : ℕ, e * step ≤ a * quarter ↔ e * 10 ^ t ≤ a * x.quarter := by
    intro a e
    rw [← mul_le_mul_iff_left₀ hc, hquarters, hpoints, Nat.cast_le]
  split at h
  · next hinside =>
    obtain rfl := Option.some.inj h
    unfold Rounds
    show if i.closed then _ else _
    simp only [inside] at hinside
    split at hinside
    · next hclosed =>
      obtain ⟨hlow, hhigh⟩ := of_decide_eq_true hinside
      rw [if_pos hclosed]
      exact ⟨(hle _ _).1 hlow, (hge _ _).1 hhigh⟩
    · next hopen =>
      obtain ⟨hlow, hhigh⟩ := of_decide_eq_true hinside
      rw [if_neg hopen]
      refine ⟨lt_of_not_ge fun hge' => ?_, lt_of_not_ge fun hle' => ?_⟩
      · exact Nat.not_le.2 hlow ((hge _ _).2 hge')
      · exact Nat.not_le.2 hhigh ((hle _ _).2 hle')
  · exact absurd h nofun

/-! ## The shortest decimal -/

theorem exactDecimal_value (x : Binary64) : x.exactDecimal.value = x.significand * 2 ^ x.scale := by
  have htwo := zpow_mul_pow_toNat (b := 2) (by norm_num) x.scale
  unfold exactDecimal Decimal.value
  dsimp only
  rw [Nat.cast_mul, Nat.cast_mul, cast_twoPow, Nat.pow_eq, Nat.cast_pow, Nat.cast_ofNat, mul_assoc,
    mul_assoc, ← htwo]
  congr 1
  split
  · next hscale =>
    -- Below one, each half is five tenths.
    obtain ⟨n, hn⟩ : ∃ n : ℕ, -x.scale = n := ⟨(-x.scale).toNat, by omega⟩
    have hneg : x.scale = -n := by omega
    rw [hneg, neg_neg, Int.toNat_natCast, zpow_neg, zpow_neg, zpow_natCast, zpow_natCast]
    have hten : (10 : ℚ) ^ n = 2 ^ n * 5 ^ n := by rw [← mul_pow]; norm_num
    rw [hten]
    field_simp
  · next hscale =>
    have hnone : (-x.scale).toNat = 0 := by omega
    rw [hnone, pow_zero, pow_zero, zpow_zero, mul_one, mul_one, mul_one]

theorem rounds_exactDecimal {x : Binary64} (h : 0 < x.significand) :
    x.Rounds x.exactDecimal.value := by
  have hquarter := x.quarter_pos
  have hvalue : x.exactDecimal.value = ((4 * x.significand : ℕ) : ℚ) * x.quarter := by
    rw [exactDecimal_value, quarter, zpow_sub₀ (by norm_num), Nat.cast_mul]
    push_cast
    ring
  have hlow : x.roundingInterval.low < 4 * x.significand := by
    unfold roundingInterval
    dsimp only
    split <;> omega
  have hhigh : 4 * x.significand < x.roundingInterval.high := by
    unfold roundingInterval
    dsimp only
    omega
  have hlow' := mul_lt_mul_of_pos_right (Nat.cast_lt (α := ℚ).2 hlow) hquarter
  have hhigh' := mul_lt_mul_of_pos_right (Nat.cast_lt (α := ℚ).2 hhigh) hquarter
  unfold Rounds
  rw [hvalue]
  split
  · exact ⟨hlow'.le, hhigh'.le⟩
  · exact ⟨hlow', hhigh'⟩

/-- The shortest decimal rounds to the value. -/
theorem rounds_shortest {x : Binary64} (h : 0 < x.significand) : x.Rounds x.shortest.value := by
  unfold shortest
  dsimp only
  generalize (List.range 17).map (fun n => x.decimalPoint - (n + 1 : ℕ)) = grids
  cases hfound : grids.findSome? x.onGrid? with
  | none => exact rounds_exactDecimal h
  | some d =>
      obtain ⟨t, -, hgrid⟩ := List.exists_of_findSome?_eq_some hfound
      exact rounds_of_onGrid hgrid

/-! ## Intervals of different values -/

def Below (x y : Binary64) : Prop :=
  x.exponent < y.exponent ∨ x.exponent = y.exponent ∧ x.fraction < y.fraction

theorem closed_iff (x : Binary64) :
    x.roundingInterval.closed = true ↔ x.significand % 2 = 0 := beq_iff_eq

theorem low_eq_of_first {x : Binary64} (h : x.fraction = 0 ∧ 1 < x.exponent) :
    x.roundingInterval.low = 4 * x.significand - 1 := by
  unfold roundingInterval
  rw [if_pos h]

theorem low_eq_of_not_first {x : Binary64} (h : ¬ (x.fraction = 0 ∧ 1 < x.exponent)) :
    x.roundingInterval.low = 4 * x.significand - 2 := by
  unfold roundingInterval
  rw [if_neg h]

theorem significand_of_normal {x : Binary64} (h : x.exponent ≠ 0) :
    x.significand = twoPow 52 + x.fraction := if_neg h

/-- The interval of a smaller value ends where that of a greater one begins, or before.  If they
meet, one of the two does not contain its end. -/
theorem interval_below {x y : Binary64} (h : x.Below y) :
    ∃ k : ℕ, y.scale = x.scale + k ∧
      x.roundingInterval.high ≤ y.roundingInterval.low * 2 ^ k ∧
      (x.roundingInterval.high = y.roundingInterval.low * 2 ^ k →
        x.roundingInterval.closed = true → y.roundingInterval.closed = false) := by
  have htwo : twoPow 52 = 4503599627370496 := by decide
  have hxf := x.fraction_lt
  have hhigh : x.roundingInterval.high = 4 * x.significand + 2 := rfl
  have hopen : y.significand % 2 ≠ 0 → y.roundingInterval.closed = false := fun hodd =>
    Bool.eq_false_iff.2 fun hclosed => hodd (y.closed_iff.1 hclosed)
  rw [hhigh, x.closed_iff]
  by_cases hnear : x.exponent = y.exponent ∨ y.exponent = 1
  · -- In one binade the significands differ, and neighbours differ in parity.
    have hscale : y.scale = x.scale + (0 : ℕ) := by
      unfold Below at h
      unfold scale
      split <;> split <;> omega
    have hlt : x.significand < y.significand := by
      unfold Below at h
      unfold significand
      split <;> split <;> omega
    have hlow : y.roundingInterval.low = 4 * y.significand - 2 := by
      refine low_eq_of_not_first fun hfirst => ?_
      unfold Below at h
      omega
    refine ⟨0, hscale, ?_, fun hmeet heven => hopen ?_⟩
    · rw [hlow, pow_zero]; omega
    · rw [hlow, pow_zero] at hmeet; omega
  · -- Before the first value of a later binade stands an odd significand.
    have hexponent : 1 < y.exponent ∧ x.exponent < y.exponent := by
      unfold Below at h
      omega
    have hsignificand : x.significand ≤ 2 * twoPow 52 - 1 := by
      unfold significand
      split <;> omega
    have hlow : 4 * twoPow 52 - 1 ≤ y.roundingInterval.low := by
      by_cases hfirst : y.fraction = 0 ∧ 1 < y.exponent
      · rw [low_eq_of_first hfirst, significand_of_normal (by omega)]; omega
      · rw [low_eq_of_not_first hfirst, significand_of_normal (by omega)]; omega
    obtain ⟨k, hk⟩ : ∃ k : ℕ, y.scale = x.scale + (k + 1 : ℕ) := by
      refine ⟨(y.scale - x.scale - 1).toNat, ?_⟩
      unfold scale
      split <;> split <;> omega
    have hdouble : y.roundingInterval.low * 2 ≤ y.roundingInterval.low * 2 ^ (k + 1) :=
      Nat.mul_le_mul_left _ (Nat.le_self_pow (Nat.succ_ne_zero k) 2)
    refine ⟨k + 1, hk, ?_, fun hmeet heven => ?_⟩
    · omega
    · exfalso; omega

/-- No number rounds to two magnitudes. -/
theorem not_rounds_both {x y : Binary64} {v : ℚ} (h : x.Below y) (hx : x.Rounds v) :
    ¬ y.Rounds v := by
  intro hy
  obtain ⟨k, hscale, hle, hopen⟩ := interval_below h
  have hquarter : y.quarter = 2 ^ k * x.quarter := by
    rw [quarter, quarter, hscale, ← zpow_natCast, ← zpow_add₀ (by norm_num)]
    congr 1
    omega
  have hlow : (y.roundingInterval.low : ℚ) * y.quarter =
      ((y.roundingInterval.low * 2 ^ k : ℕ) : ℚ) * x.quarter := by
    rw [hquarter, Nat.cast_mul, Nat.cast_pow, Nat.cast_ofNat, mul_assoc]
  have hends : (x.roundingInterval.high : ℚ) * x.quarter ≤ y.roundingInterval.low * y.quarter := by
    rw [hlow]
    exact mul_le_mul_of_nonneg_right (Nat.cast_le.2 hle) x.quarter_pos.le
  have hmeet : (x.roundingInterval.high : ℚ) * x.quarter = y.roundingInterval.low * y.quarter :=
    le_antisymm hends (hy.bounds.1.trans hx.bounds.2)
  have hvx : v = x.roundingInterval.high * x.quarter :=
    le_antisymm hx.bounds.2 (hmeet.trans_le hy.bounds.1)
  have hend : x.roundingInterval.high = y.roundingInterval.low * 2 ^ k := by
    rw [hlow] at hmeet
    exact Nat.cast_injective (mul_right_cancel₀ x.quarter_pos.ne' hmeet)
  have hyopen := hopen hend (hx.closed (.inr hvx))
  rw [hy.closed (.inl (hvx.trans hmeet))] at hyopen
  exact absurd hyopen nofun

/-- Positive magnitudes that share their shortest decimal are equal. -/
theorem magnitude_eq_of_shortest {x y : Binary64} (hx : 0 < x.significand)
    (hy : 0 < y.significand) (h : x.shortest.value = y.shortest.value) :
    x.exponent = y.exponent ∧ x.fraction = y.fraction := by
  have hrounds : y.Rounds x.shortest.value := h ▸ rounds_shortest hy
  have hnot : ¬ x.Below y := fun hbelow => not_rounds_both hbelow (rounds_shortest hx) hrounds
  have hnot' : ¬ y.Below x := fun hbelow => not_rounds_both hbelow hrounds (rounds_shortest hx)
  unfold Below at hnot hnot'
  omega

end Binary64

end MiniJava.Numeric
