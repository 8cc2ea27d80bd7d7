import MiniJava.Numeric.Shortest
import MiniJava.Text.Blank
/-!
# JSON values

JSON values and their compact text on one line: members and items are separated
by a comma and a blank, and a key from its value by a colon and a blank. Control
characters, quotes and backslashes never stand unescaped in a string.
-/

namespace MiniJava

open MiniJava.Text

inductive Json where
  | null
  | bool (value : Bool)
  | int (value : Int)
  | real (value : Numeric.Binary64)
  | string (value : String)
  | array (items : List Json)
  | object (fields : List (String × Json))
  deriving Repr

namespace Json

/-- The last four hexadecimal digits of a code point, letters small. -/
def hex4 (n : Nat) : List Char :=
  [n / 4096 % 16, n / 256 % 16, n / 16 % 16, n % 16].map Nat.digitChar

def escape (c : Char) : List Char :=
  if c = '\x22' then ['\\', '\x22']
  else if c = '\\' then ['\\', '\\']
  else if c = '\n' then ['\\', 'n']
  else if c = '\r' then ['\\', 'r']
  else if c = '\t' then ['\\', 't']
  else if isControl c then '\\' :: 'u' :: hex4 c.toNat
  else [c]

def writeString (s : String) (after : List Char) : List Char :=
  '\x22' :: s.toList.foldr (fun c rest => escape c ++ rest) ('\x22' :: after)

mutual

/-- The text of a value, and a text after it. -/
def write : Json → List Char → List Char
  | null, after => 'n' :: 'u' :: 'l' :: 'l' :: after
  | bool true, after => 't' :: 'r' :: 'u' :: 'e' :: after
  | bool false, after => 'f' :: 'a' :: 'l' :: 's' :: 'e' :: after
  | int n, after => (toString n).toList ++ after
  | real x, after => x.text ++ after
  | string s, after => writeString s after
  | array items, after => '[' :: writeItems items (']' :: after)
  | object fields, after => '\x7b' :: writeFields fields ('\x7d' :: after)

def writeItems : List Json → List Char → List Char
  | [], after => after
  | [j], after => write j after
  | j :: js, after => write j (',' :: ' ' :: writeItems js after)

def writeFields : List (String × Json) → List Char → List Char
  | [], after => after
  | [(k, j)], after => writeString k (':' :: ' ' :: write j after)
  | (k, j) :: fs, after =>
    writeString k (':' :: ' ' :: write j (',' :: ' ' :: writeFields fs after))

end

def compact (j : Json) : List Char := write j []

end Json

end MiniJava
