import MiniJava.Json.Basic
import MiniJava.Text.Digits
/-!
# The grammar of JSON

Which texts denote which JSON values.  Blanks may stand around values, keys and separators; a
number is what its numeral is, and a string the characters that its escapes stand for.
-/

namespace MiniJava.Json

open MiniJava.Text

inductive Value where
  | null
  | bool (value : Bool)
  | number (numeral : List Char)
  | string (value : String)
  | array (items : List Value)
  | object (fields : List (String × Value))

/-! ## Numerals -/

def Digits (ds : List Char) : Prop := ds ≠ [] ∧ ∀ c ∈ ds, c.isDigit = true

/-- Digits without a zero before others. -/
def Whole (ds : List Char) : Prop := Digits ds ∧ (ds.head? = some '0' → ds = ['0'])

inductive Fraction : List Char → Prop
  | none : Fraction []
  | digits {ds} : Digits ds → Fraction ('.' :: ds)

inductive Exponent : List Char → Prop
  | none : Exponent []
  | digits {mark sign ds} : mark = 'e' ∨ mark = 'E' → sign = [] ∨ sign = ['+'] ∨ sign = ['-'] →
      Digits ds → Exponent (mark :: (sign ++ ds))

inductive Numeral : List Char → Prop
  | intro {minus whole fraction exponent} : minus = [] ∨ minus = ['-'] → Whole whole →
      Fraction fraction → Exponent exponent → Numeral (minus ++ (whole ++ (fraction ++ exponent)))

/-! ## Strings -/

/-- What may follow a backslash, and the character that both stand for. -/
def shortEscapes : List (Char × Char) :=
  [('\x22', '\x22'), ('\\', '\\'), ('/', '/'), ('b', '\x08'), ('f', '\x0c'), ('n', '\n'),
    ('r', '\r'), ('t', '\t')]

def CodeUnit (n : Nat) (ds : List Char) : Prop :=
  ds.length = 4 ∧ (∀ d ∈ ds, Radix.hexadecimal.isDigit d = true) ∧
    Radix.hexadecimal.number ds = n

/-- The ways to write a character inside a string; one beyond the first plane may be written as
two halves. -/
inductive Written : Char → List Char → Prop
  | plain {c} : c ≠ '\x22' → c ≠ '\\' → 0x20 ≤ c.toNat → Written c [c]
  | short {d c} : (d, c) ∈ shortEscapes → Written c ['\\', d]
  | code {c ds} : CodeUnit c.toNat ds → Written c ('\\' :: 'u' :: ds)
  | pair {c : Char} {high low ds es} : high < 0x400 → low < 0x400 →
      c.toNat = 0x10000 + high * 0x400 + low → CodeUnit (0xD800 + high) ds →
      CodeUnit (0xDC00 + low) es → Written c ('\\' :: 'u' :: (ds ++ '\\' :: 'u' :: es))

inductive Characters : List Char → List Char → Prop
  | nil : Characters [] []
  | cons {c cs text body} : Written c text → Characters cs body →
      Characters (c :: cs) (text ++ body)

inductive Quoted : String → List Char → Prop
  | intro {s body} : Characters s.toList body → Quoted s ('\x22' :: (body ++ ['\x22']))

/-! ## Values -/

def isSpace (c : Char) : Bool := c == ' ' || c == '\t' || c == '\n' || c == '\r'

def Spaces (text : List Char) : Prop := ∀ c ∈ text, isSpace c = true

section

variable {α : Type}

inductive Padded (item : α → List Char → Prop) : α → List Char → Prop
  | intro {before a text after} : Spaces before → item a text → Spaces after →
      Padded item a (before ++ (text ++ after))

inductive Separated (item : α → List Char → Prop) : List α → List Char → Prop
  | one {a text} : item a text → Separated item [a] text
  | more {a as text texts} : item a text → Separated item as texts →
      Separated item (a :: as) (text ++ ',' :: texts)

inductive Listed (item : α → List Char → Prop) : List α → List Char → Prop
  | none {text} : Spaces text → Listed item [] text
  | some {as text} : Separated item as text → Listed item as text

end

inductive Member (value : Value → List Char → Prop) : String × Value → List Char → Prop
  | intro {k v key text} : Padded Quoted k key → Padded value v text →
      Member value (k, v) (key ++ ':' :: text)

/-- The texts of a value, from its first character to its last. -/
inductive Denotes : Value → List Char → Prop
  | null : Denotes .null ['n', 'u', 'l', 'l']
  | trueWord : Denotes (.bool true) ['t', 'r', 'u', 'e']
  | falseWord : Denotes (.bool false) ['f', 'a', 'l', 's', 'e']
  | number {text} : Numeral text → Denotes (.number text) text
  | string {s text} : Quoted s text → Denotes (.string s) text
  | array {vs text} : Listed (Padded Denotes) vs text → Denotes (.array vs) ('[' :: (text ++ [']']))
  | object {fs text} : Listed (Member Denotes) fs text →
      Denotes (.object fs) ('\x7b' :: (text ++ ['\x7d']))

def Document (v : Value) (text : List Char) : Prop := Padded Denotes v text

end MiniJava.Json
