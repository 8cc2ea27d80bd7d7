import MiniJava.Lexical.Segment
/-!
# Operators and delimiters

Of the reserved symbols, the longest at the front of a text is read. A character
that begins none is unknown.
-/

namespace MiniJava.Lexical.Symbol

def spelled? (text : List Char) : Option Segment :=
  let word := String.ofList text
  if Lexicon.contains word then some ⟨text, .word (Lexicon.classify word)⟩ else none

/-- The symbol that begins with `c` and may go on in the text after it. -/
def read (c : Char) (rest : List Char) : Segment :=
  let pair? :=
    match rest with
    | d :: _ => spelled? [c, d]
    | [] => none
  (pair?.or (spelled? [c])).getD ⟨[c], .malformed (.atStart (.unknownCharacter c)) []⟩

end MiniJava.Lexical.Symbol
