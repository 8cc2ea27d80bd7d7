import MiniJava.Lexical.Segment
import MiniJava.Numeric.Decimal
import MiniJava.Text.Blank
import MiniJava.Text.Chunks
/-!
# Numbers

A numeral is taken apart first and judged afterwards. It has a radix mark, the
digits of its whole number, any sequence of fractions and exponents, and the
letters glued to its end. A well-formed one is a whole number in base eight, ten
or sixteen, or a decimal number with at most one fraction and then at most one
exponent; every departure from that is a fault.
-/

namespace MiniJava.Lexical

open MiniJava.Text MiniJava.Numeric

/-- What may follow the whole number: a dot and digits, or an exponent mark, a sign and
digits. Only the digits of an exponent may be missing. -/
inductive NumeralPart where
  | fraction (digits : List Char)
  | exponent (mark : Char) (sign : Option Char) (digits : List Char)
  deriving DecidableEq, Repr

namespace NumeralPart

def text : NumeralPart → List Char
  | fraction digits => '.' :: digits
  | exponent mark sign digits => mark :: (sign.toList ++ digits)

def standardText : NumeralPart → List Char
  | fraction digits => '.' :: digits
  | exponent _ sign digits => 'e' :: (sign.toList ++ digits)

def readExponent (mark : Char) : List Char → NumeralPart
  | '+' :: rest => exponent mark (some '+') (rest.takeWhile Char.isDigit)
  | '-' :: rest => exponent mark (some '-') (rest.takeWhile Char.isDigit)
  | rest => exponent mark none (rest.takeWhile Char.isDigit)

/-- The part at the front of a text. A dot without a digit after it is no fraction, and
only a decimal number has exponents. -/
def read? (radix : Radix) : List Char → Option NumeralPart
  | [] => none
  | c :: rest =>
    if c = '.' then
      if (rest.head?.map Char.isDigit).getD false then
        some (fraction (rest.takeWhile Char.isDigit))
      else none
    else if radix = .decimal ∧ (c = 'e' ∨ c = 'E') then some (readExponent c rest)
    else none

/-- The faults of a sequence of parts, given whether a fraction and an exponent came
before, where the sequence begins, and the text that follows it. -/
def faults (radix : Radix) (after : List Char) (hasFraction hasExponent : Bool) (offset : Nat) :
    List NumeralPart → List Fault
  | [] => []
  | fraction digits :: parts =>
    (if hasFraction then [⟨offset, .secondDot⟩] else []) ++
      (if hasExponent then [⟨offset, .dotAfterExponent⟩] else []) ++
      (match radix with
        | .hexadecimal => [⟨offset, .hexadecimalFraction⟩]
        | .octal => [⟨offset, .octalFraction⟩]
        | .decimal => []) ++
      faults radix after true hasExponent (offset + (fraction digits).text.length) parts
  | exponent mark sign digits :: parts =>
    let next := offset + (exponent mark sign digits).text.length
    (if hasExponent then [⟨offset, .secondExponent⟩] else []) ++
      (if digits.isEmpty then
        [⟨next, .noExponentDigit (parts.flatMap text ++ after).head?⟩] else []) ++
      faults radix after hasFraction true next parts

end NumeralPart

structure Numeral where
  radix : Radix
  mark : List Char
  digits : List Char
  parts : List NumeralPart
  glued : List Char
  deriving DecidableEq, Repr

namespace Numeral

/-- The radix of the numeral at the front of a text, and the characters that announce it. -/
def radixMark : List Char → Radix × List Char
  | '0' :: c :: _ =>
    if c = 'x' ∨ c = 'X' then (.hexadecimal, ['0', c])
    else if Radix.octal.isDigit c then (.octal, ['0'])
    else (.decimal, [])
  | _ => (.decimal, [])

def ofText (text : List Char) : Numeral :=
  let (radix, mark) := radixMark text
  let rest := text.drop mark.length
  let digits := rest.takeWhile radix.isDigit
  let rest := rest.drop digits.length
  let parts := chunks (NumeralPart.read? radix) (·.text.length) rest
  let rest := rest.drop (parts.flatMap NumeralPart.text).length
  ⟨radix, mark, digits, parts, rest.takeWhile isWordChar⟩

/-- The characters of the number, without what is glued to it. -/
def text (n : Numeral) : List Char :=
  n.mark ++ n.digits ++ n.parts.flatMap NumeralPart.text

/-- The faults of form, given the text after the numeral. Glued letters are a fault only
if nothing else is wrong. -/
def faults (n : Numeral) (after : List Char) : List Fault :=
  let start := n.mark.length + n.digits.length
  let bare := if n.radix = .hexadecimal ∧ n.digits = [] then [⟨start, .noHexadecimalDigit⟩] else []
  let found := bare ++ NumeralPart.faults n.radix (n.glued ++ after) false false start n.parts
  if found = [] ∧ n.glued ≠ [] then
    [.atStart (.letterAfterNumber n.radix (String.ofList (n.text ++ n.glued)))]
  else found

def maxInteger : Nat := 2147483647

/-- The literal that a well-formed numeral writes, or why its value does not fit. -/
def value (n : Numeral) : Content :=
  let word := String.ofList n.text
  if n.parts = [] then
    let v := n.radix.number n.digits
    if v ≤ maxInteger then .word (.literal .integer word (.int v))
    else .malformed (.atStart (.integerRange word)) []
  else
    match Binary64.ofText? (n.digits ++ n.parts.flatMap NumeralPart.standardText) with
    | none => .malformed (.atStart (.realForm word)) []
    | some x =>
      if x.isFinite then .word (.literal .real word (.real x))
      else .malformed (.atStart (.realRange word)) []

def read (text : List Char) : Segment :=
  let n := ofText text
  let covered := n.text ++ n.glued
  match n.faults (text.drop covered.length) with
  | [] => ⟨covered, n.value⟩
  | first :: others => ⟨covered, .malformed first others⟩

end Numeral

end MiniJava.Lexical
