import MiniJava.Lexical.Segment
import MiniJava.Text.Blank
/-!
# Words

A word is a maximal run of letters, digits and underscores. It is a reserved
word, a type, a truth value or an identifier, and must not begin with an
underscore. The print keyword is the one word with dots; it is recognised by its
first segment, and only where the whole of it ends on a word boundary.
-/

namespace MiniJava.Lexical.Word

open MiniJava.Text

def begins (c : Char) : Bool := c.isAlpha || c == '_'

/-- The first segment of the print keyword. -/
def printHead : List Char := Lexicon.printSpelling.toList.takeWhile isWordChar

def printTail : List Char := Lexicon.printSpelling.toList.dropWhile isWordChar

/-- Whether no word goes on at the front of a text. -/
def atBoundary (text : List Char) : Bool :=
  (text.head?.map isWordChar).getD false == false

/-- Whether the print keyword goes on at the front of a text and ends there. -/
def continuesPrint (text : List Char) : Bool :=
  printTail.isPrefixOf text && atBoundary (text.drop printTail.length)

def extent (text : List Char) : List Char :=
  let run := text.takeWhile isWordChar
  if run = printHead ∧ continuesPrint (text.drop run.length) then run ++ printTail else run

def read (text : List Char) : Segment :=
  let run := extent text
  let word := String.ofList run
  if run.head? = some '_' then ⟨run, .malformed (.atStart (.underscoreFirst word)) []⟩
  else ⟨run, .word (Lexicon.classify word)⟩

end MiniJava.Lexical.Word
