/-!
# Binary floating-point numbers

The values of the binary64 interchange format, held as sign, biased exponent and
fraction, so that equal values of this type are equal bit for bit. A quotient of
natural numbers is rounded to the nearest value, a half to the even neighbour,
in exact arithmetic.
-/

namespace MiniJava.Numeric

abbrev twoPow (n : Nat) : Nat := Nat.pow 2 n

structure Binary64 where
  negative : Bool
  exponent : Nat
  fraction : Nat
  exponent_lt : exponent < 2048
  fraction_lt : fraction < twoPow 52
  deriving DecidableEq, Repr

namespace Binary64

def zero (negative : Bool) : Binary64 := ⟨negative, 0, 0, by decide, by decide⟩

def infinity (negative : Bool) : Binary64 := ⟨negative, 2047, 0, by decide, by decide⟩

def nan (negative : Bool) : Binary64 := ⟨negative, 2047, twoPow 51, by decide, by decide⟩

def isFinite (x : Binary64) : Bool := x.exponent != 2047

def isNaN (x : Binary64) : Bool := x.exponent == 2047 && x.fraction != 0

/-- The whole number that `2 ^ scale` multiplies, with its hidden bit if there is one. -/
def significand (x : Binary64) : Nat :=
  if x.exponent = 0 then x.fraction else twoPow 52 + x.fraction

/-- The power of two that the significand counts. -/
def scale (x : Binary64) : Int :=
  if x.exponent = 0 then -1074 else x.exponent - 1075

/-- The value whose magnitude is the `bits`-th from zero; past the largest finite one,
infinity. -/
def ofMagnitude (negative : Bool) (bits : Nat) : Binary64 :=
  if h : bits < 2047 * twoPow 52 then
    ⟨negative, bits / twoPow 52, bits % twoPow 52,
      Nat.lt_trans (Nat.div_lt_of_lt_mul (Nat.mul_comm .. ▸ h)) (by decide),
      Nat.mod_lt _ (by decide)⟩
  else infinity negative

/-- A quotient to the nearest whole number, a half to the even one. -/
def roundHalfEven (num den : Nat) : Nat :=
  let q := num / den
  let r := num % den
  if 2 * r < den then q else if den < 2 * r then q + 1 else q + q % 2

/-- The `e` for which a positive quotient lies in `[2 ^ e, 2 ^ (e + 1))`. -/
def binade (num den : Nat) : Int :=
  let d : Int := (num.log2 : Int) - (den.log2 : Int)
  if den * twoPow d.toNat ≤ num * twoPow (-d).toNat then d else d - 1

def ofQuotient (negative : Bool) (num den : Nat) : Binary64 :=
  let e := binade num den - 52
  let s := if e < -1074 then -1074 else e
  let m := roundHalfEven (num * twoPow (-s).toNat) (den * twoPow s.toNat)
  ofMagnitude negative ((s + 1074).toNat * twoPow 52 + m)

end Binary64

end MiniJava.Numeric
