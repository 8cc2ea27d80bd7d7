import MiniJava.Lexical.Gap
import MiniJava.Lexical.Numeral
import MiniJava.Lexical.Quoted
import MiniJava.Lexical.Symbol
import MiniJava.Lexical.Word
/-!
# The segments of a source text

The first character of what is left of a text decides which recogniser reads the
next segment. The segments of a text, joined, are the text.
-/

namespace MiniJava.Lexical

open MiniJava.Text

namespace Segment

/-- The segment of a text that begins with no gap. -/
def ofFirst (c : Char) (rest : List Char) : Segment :=
  if Word.begins c then Word.read (c :: rest)
  else if c.isDigit then Numeral.read (c :: rest)
  else if c = Quote.char.mark then Quote.char.read rest
  else if c = Quote.string.mark then Quote.string.read rest
  else Symbol.read c rest

def read? : List Char → Option Segment
  | [] => none
  | c :: rest => (Gap.read? (c :: rest)).or (some (ofFirst c rest))

end Segment

def segments (text : List Char) : List Segment :=
  chunks Segment.read? Segment.width text

end MiniJava.Lexical
