import MiniJava.Numeric.Decimal
/-!
# Shortest decimal text

The text of a binary64 value carries the fewest digits that read back as it, and
of those the digits nearest to it. The search runs over decimal grids, coarsest
first, and tests the two neighbours of the value on each.
-/

namespace MiniJava.Numeric

namespace Binary64

/-- The decimals that round to a positive finite value, measured in quarters of its last
place: the half gap below it is one quarter at a power of two and two quarters
elsewhere, and the ends belong to an even significand. -/
structure RoundingInterval where
  low : Nat
  middle : Nat
  high : Nat
  closed : Bool

def roundingInterval (x : Binary64) : RoundingInterval :=
  let m := x.significand
  let below := if x.fraction = 0 ∧ 1 < x.exponent then 1 else 2
  ⟨4 * m - below, 4 * m, 4 * m + 2, m % 2 == 0⟩

/-- The decimal of the grid `10 ^ t` that is nearest to `x`, if it reads back as `x`; of
two that are equally near, the larger. -/
def onGrid? (x : Binary64) (t : Int) : Option Decimal :=
  let i := x.roundingInterval
  let step := tenPow t.toNat * twoPow (2 - x.scale).toNat
  let quarter := twoPow (x.scale - 2).toNat * tenPow (-t).toNat
  let below := i.middle * quarter / step
  let inside (d : Nat) : Bool :=
    if i.closed then i.low * quarter ≤ d * step ∧ d * step ≤ i.high * quarter
    else i.low * quarter < d * step ∧ d * step < i.high * quarter
  let nearer :=
    if inside below ∧
        (!inside (below + 1) ∨ 2 * (i.middle * quarter - below * step) < step) then below
    else below + 1
  if inside nearer then some ⟨nearer, t⟩ else none

/-- The power of ten that just exceeds a positive finite value. -/
def decimalPoint (x : Binary64) : Int :=
  let e := (x.significand.log2 : Int) + x.scale
  let guess := e * 1233 / 4096 - 1
  let above (k : Int) : Bool :=
    x.significand * twoPow x.scale.toNat * tenPow (-k).toNat <
      tenPow k.toNat * twoPow (-x.scale).toNat
  ([guess, guess + 1, guess + 2].find? above).getD (guess + 3)

def exactDecimal (x : Binary64) : Decimal :=
  ⟨x.significand * twoPow x.scale.toNat * Nat.pow 5 (-x.scale).toNat,
    if x.scale < 0 then x.scale else 0⟩

/-- The shortest decimal that reads back as a positive finite value. Seventeen digits
always suffice. -/
def shortest (x : Binary64) : Decimal :=
  let k := x.decimalPoint
  let grids := (List.range 17).map fun n => k - (n + 1 : Nat)
  (grids.findSome? x.onGrid?).getD x.exactDecimal

end Binary64

namespace Decimal

def keptFigures (d : Decimal) : List Char :=
  match (d.figures.reverse.dropWhile (· == '0')).reverse with
  | [] => ['0']
  | figures => figures

private def zeros (n : Int) : List Char := List.replicate n.toNat '0'

def positional (d : Decimal) : List Char :=
  let ds := d.keptFigures
  let k := d.point
  if k ≤ 0 then '0' :: '.' :: zeros (-k) ++ ds
  else if k < ds.length then ds.take k.toNat ++ '.' :: ds.drop k.toNat
  else ds ++ zeros (k - ds.length) ++ ['.', '0']

/-- Scientific form, one digit before the point and no point after a lone digit. -/
def scientific (d : Decimal) : List Char :=
  let tail := 'e' :: (toString (d.point - 1)).toList
  match d.keptFigures with
  | [] => tail
  | [f] => f :: tail
  | f :: fs => f :: '.' :: fs ++ tail

end Decimal

/-- The written form of a value: positional from `0.0001` up to sixteen digits before the
point, scientific outside. -/
def Binary64.text (x : Binary64) : List Char :=
  let sign := if x.negative then ['-'] else []
  if x.isNaN then ['N', 'a', 'N']
  else if !x.isFinite then sign ++ ['i', 'n', 'f']
  else if x.significand = 0 then sign ++ ['0', '.', '0']
  else
    let d := x.shortest
    if -4 < d.point ∧ d.point ≤ 16 then sign ++ d.positional else sign ++ d.scientific

end MiniJava.Numeric
