import MiniJava.Source
import MiniJava.Numeric.Shortest
/-!
# Tokens

A lexeme is one word of the language with its classification; a token is a lexeme
found at a place. The terminal tells reserved words and symbols apart, and the
payload holds the value of a literal.
-/

namespace MiniJava

inductive TokenKind where
  | integer
  | boolean
  | real
  | charLiteral
  | stringLiteral
  | identifier
  | keyword
  | dataType
  | operator
  | delimiter
  | endOfFile
  | unknown
  deriving DecidableEq, Repr

namespace TokenKind

def description : TokenKind → String
  | integer => "integer"
  | boolean => "boolean"
  | real => "real"
  | charLiteral => "char literal"
  | stringLiteral => "string literal"
  | identifier => "identifier"
  | keyword => "keyword"
  | dataType => "data type"
  | operator => "operator"
  | delimiter => "delimiter"
  | endOfFile => "eof"
  | unknown => "unknown"

end TokenKind

/-- Which reserved word or symbol a token is; names and literals are unreserved. -/
inductive Terminal where
  | classKeyword
  | publicKeyword
  | staticKeyword
  | voidKeyword
  | mainKeyword
  | extendsKeyword
  | returnKeyword
  | ifKeyword
  | elseKeyword
  | whileKeyword
  | forKeyword
  | printKeyword
  | lengthKeyword
  | thisKeyword
  | newKeyword
  | doubleType
  | intType
  | charType
  | stringType
  | booleanType
  | trueLiteral
  | falseLiteral
  | leftParen
  | rightParen
  | leftBracket
  | rightBracket
  | leftBrace
  | rightBrace
  | comma
  | semicolon
  | assign
  | and
  | lessThan
  | plus
  | minus
  | times
  | dot
  | not
  | unreserved
  deriving DecidableEq, Repr

/-- The value of a literal. A character literal carries its code point. -/
inductive Payload where
  | none
  | int (value : Int)
  | real (value : Numeric.Binary64)
  | text (value : String)
  deriving DecidableEq, Repr

/-- A classified word. The precedence is that of a binary operator, and negative for all
else. -/
structure Lexeme where
  kind : TokenKind
  terminal : Terminal
  text : String
  payload : Payload
  precedence : Int
  deriving DecidableEq, Repr

namespace Lexeme

/-- A literal is unreserved and no operator. -/
def literal (kind : TokenKind) (text : String) (payload : Payload) : Lexeme :=
  ⟨kind, .unreserved, text, payload, -1⟩

def endOfFile : Lexeme := ⟨.endOfFile, .unreserved, "END_OF_FILE", .none, -1⟩

def describe (l : Lexeme) : String :=
  if l.kind = .endOfFile then "end of file"
  else l.kind.description ++ " '" ++ l.text ++ "'"

def int? (l : Lexeme) : Option Int :=
  match l.payload with
  | .int n => some n
  | _ => none

def real? (l : Lexeme) : Option Numeric.Binary64 :=
  match l.payload with
  | .real x => some x
  | _ => none

def string? (l : Lexeme) : Option String :=
  match l.payload with
  | .text s => some s
  | _ => none

end Lexeme

structure Token extends Lexeme where
  location : Location
  deriving DecidableEq, Repr

namespace Token

def endOfFile (location : Location) : Token := ⟨.endOfFile, location⟩

def isEndOfFile (t : Token) : Bool := t.kind == .endOfFile

/-- One line of a token listing. -/
def listing (t : Token) : String :=
  t.location.text ++ ":\t" ++ t.kind.description ++ "\t" ++ t.text ++ "\t\t" ++
    toString t.precedence

end Token

end MiniJava
