import MiniJava.Lexical.Segment
import MiniJava.Text.Blank
/-!
# Gaps between words

Blank characters and comments separate words. A line comment ends before its
newline, which is a blank of its own; a block comment ends with the first `*/`
after its opening, and one that never ends takes the rest of the text.
-/

namespace MiniJava.Lexical.Gap

open MiniJava.Text

/-- A text up to and including the first `*/`. -/
def throughClose? : List Char → Option (List Char)
  | [] => none
  | c :: rest =>
    match c, rest with
    | '*', '/' :: _ => some ['*', '/']
    | _, _ => (throughClose? rest).map (c :: ·)

/-- The comment that begins with `/*`, given the text after these two characters. -/
def blockComment (rest : List Char) : Segment :=
  match throughClose? rest with
  | some body => ⟨'/' :: '*' :: body, .gap⟩
  | none => ⟨'/' :: '*' :: rest, .malformed (.atStart .unclosedComment) []⟩

/-- The comment that begins with `//`, given the text after these two characters. -/
def lineComment (rest : List Char) : Segment :=
  ⟨'/' :: '/' :: rest.takeWhile (· != '\n'), .gap⟩

def read? : List Char → Option Segment
  | '/' :: '/' :: rest => some (lineComment rest)
  | '/' :: '*' :: rest => some (blockComment rest)
  | c :: _ => if isBlank c then some ⟨[c], .gap⟩ else none
  | [] => none

end MiniJava.Lexical.Gap
