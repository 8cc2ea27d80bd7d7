import MiniJava.Numeric.Binary64
import MiniJava.Text.Digits
/-!
# Decimal numbers

A decimal is a whole number of a power of ten. This module reads decimals from
their written form and rounds them to binary64; numbers too large become
infinite and numbers too small become zero.
-/

namespace MiniJava.Numeric

open MiniJava.Text

abbrev tenPow (n : Nat) : Nat := Nat.pow 10 n

/-- The number `digits * 10 ^ scale`. -/
structure Decimal where
  digits : Nat
  scale : Int
  deriving DecidableEq, Repr

namespace Decimal

/-- The digits of the whole number, most significant first. -/
def figures (d : Decimal) : List Char := Nat.toDigits 10 d.digits

/-- How many digits stand before the decimal point: the number lies below `10 ^ point`. -/
def point (d : Decimal) : Int := d.figures.length + d.scale

/-- The nearest binary64 value; the two early cases only spare large powers of ten. -/
def toBinary64 (d : Decimal) (negative : Bool) : Binary64 :=
  if d.digits = 0 then .zero negative
  else if 310 < d.point then .infinity negative
  else if d.point < -330 then .zero negative
  else .ofQuotient negative (d.digits * tenPow d.scale.toNat) (tenPow (-d.scale).toNat)

def exponentOf? (text : List Char) : Option Int :=
  let run (digits : List Char) : Option Nat :=
    if !digits.isEmpty && digits.all Char.isDigit then some (Radix.decimal.number digits) else none
  match text with
  | '+' :: digits => (run digits).map Int.ofNat
  | '-' :: digits => (run digits).map fun n => -(n : Int)
  | digits => (run digits).map Int.ofNat

/-- Reads `digits[.digits][e[sign]digits]`; one of the first two runs may be empty, not
both. -/
def ofText? (text : List Char) : Option Decimal :=
  let whole := text.takeWhile Char.isDigit
  let (part, rest) :=
    match text.dropWhile Char.isDigit with
    | '.' :: r => (r.takeWhile Char.isDigit, r.dropWhile Char.isDigit)
    | r => ([], r)
  let exponent :=
    match rest with
    | [] => some 0
    | c :: r => if c = 'e' ∨ c = 'E' then exponentOf? r else none
  if whole.isEmpty && part.isEmpty then none
  else exponent.map fun e => ⟨Radix.decimal.number (whole ++ part), e - part.length⟩

end Decimal

/-- Reads a decimal, or the name of an infinity or of a value that is not a number in
letters of either case, after an optional sign. -/
def Binary64.ofText? (text : List Char) : Option Binary64 :=
  let unsigned (negative : Bool) (body : List Char) : Option Binary64 :=
    let word := String.ofList (body.map Char.toLower)
    if word = "inf" ∨ word = "infinity" then some (.infinity negative)
    else if word = "nan" then some (.nan negative)
    else (Decimal.ofText? body).map (·.toBinary64 negative)
  match text with
  | '+' :: body => unsigned false body
  | '-' :: body => unsigned true body
  | body => unsigned false body

end MiniJava.Numeric
