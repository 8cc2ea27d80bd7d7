import MiniJava.Grammar.Program
import MiniJava.Lexical.TokenStream
/-!
# Parsers on token streams

A parser holds a token stream with one token of lookahead. Running a production
on it moves the stream past the tokens read, and the errors reported join the
log between the diagnostics of the tokens around them.
-/

namespace MiniJava.Grammar

open MiniJava.Lexical

variable {α : Type}

def SyntaxError.diagnostic (e : SyntaxError) : Diagnostic := ⟨.syntactic, e.location, e.message⟩

/-- What one step of a production does to the stream. -/
def Step.follow (s : TokenStream) : Step → TokenStream
  | .read _ => s.next
  | .report e => s.record e.diagnostic

structure Parser where
  stream : TokenStream
  errors : Nat
  deriving DecidableEq, Repr

namespace Parser

/-- A parser on a stream, with the next token pulled as lookahead. -/
def ofStream (s : TokenStream) : Parser := ⟨s.next, 0⟩

/-- The tokens before the end of the source, the lookahead first. -/
def ahead (p : Parser) : List Token :=
  if p.stream.current.isEndOfFile then [] else p.stream.current :: p.stream.remaining

def finish (p : Parser) : Location := p.stream.ending.token.location

def hadError (p : Parser) : Bool := p.errors != 0

/-- Runs a production. An error that ends it is its value and is not reported. -/
def run (p : Parser) (production : Parse α) : Except SyntaxError α × Parser :=
  let o := production.run p.finish p.ahead
  (o.value, ⟨o.trace.foldl Step.follow p.stream, p.errors + o.trace.errors.length⟩)

def statement (p : Parser) : Except SyntaxError Node × Parser := p.run Grammar.statement

def expression (p : Parser) : Except SyntaxError Node × Parser := p.run Grammar.expression

/-- Reads a whole program. Errors in it are reported, and none ends it. -/
def program (p : Parser) : Program × Parser :=
  match p.run Grammar.program with
  | (.ok found, q) => (found, q)
  | (.error e, q) => (⟨e.location, []⟩, q)

end Parser

def parseText (source text : String) : Program × Parser :=
  (Parser.ofStream (.ofText source text)).program

end MiniJava.Grammar
