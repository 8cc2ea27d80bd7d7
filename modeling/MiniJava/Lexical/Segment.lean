import MiniJava.Lexical.Fault
import MiniJava.Token.Lexicon
/-!
# Segments of a text

A segment is a stretch of source text with what it holds: a gap between words, a
word, or something malformed with the faults found in it, at least one. The
recognisers of the language each read one segment from the front of a text.
-/

namespace MiniJava.Lexical

inductive Content where
  | gap
  | word (lexeme : Lexeme)
  | malformed (first : Fault) (others : List Fault)
  deriving DecidableEq, Repr

structure Segment where
  text : List Char
  content : Content
  deriving DecidableEq, Repr

namespace Segment

def width (g : Segment) : Nat := g.text.length

end Segment

end MiniJava.Lexical
