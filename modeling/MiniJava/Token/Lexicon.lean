import MiniJava.Token.Basic
/-!
# The reserved words and symbols

The lexicon lists every reserved spelling with its classification. Any word that
is not in it is an identifier.
-/

namespace MiniJava

namespace Lexicon

structure Entry where
  spelling : String
  kind : TokenKind
  terminal : Terminal
  precedence : Int
  deriving DecidableEq, Repr

/-- The print keyword, the one reserved word with dots in it. -/
def printSpelling : String := "System.out.println"

private def operators : List Entry :=
  [⟨"=", .operator, .assign, 0⟩,
   ⟨"&&", .operator, .and, 1⟩,
   ⟨"<", .operator, .lessThan, 2⟩,
   ⟨"+", .operator, .plus, 10⟩,
   ⟨"-", .operator, .minus, 10⟩,
   ⟨"*", .operator, .times, 20⟩,
   ⟨"!", .operator, .not, -1⟩]

private def delimiters : List Entry :=
  [⟨"(", .delimiter, .leftParen, -1⟩,
   ⟨")", .delimiter, .rightParen, -1⟩,
   ⟨"[", .delimiter, .leftBracket, -1⟩,
   ⟨"]", .delimiter, .rightBracket, -1⟩,
   ⟨"\x7b", .delimiter, .leftBrace, -1⟩,
   ⟨"\x7d", .delimiter, .rightBrace, -1⟩,
   ⟨",", .delimiter, .comma, -1⟩,
   ⟨";", .delimiter, .semicolon, -1⟩,
   ⟨".", .delimiter, .dot, -1⟩]

private def keywords : List Entry :=
  [⟨"class", .keyword, .classKeyword, -1⟩,
   ⟨"public", .keyword, .publicKeyword, -1⟩,
   ⟨"static", .keyword, .staticKeyword, -1⟩,
   ⟨"void", .keyword, .voidKeyword, -1⟩,
   ⟨"main", .keyword, .mainKeyword, -1⟩,
   ⟨"extends", .keyword, .extendsKeyword, -1⟩,
   ⟨"return", .keyword, .returnKeyword, -1⟩,
   ⟨"if", .keyword, .ifKeyword, -1⟩,
   ⟨"else", .keyword, .elseKeyword, -1⟩,
   ⟨"while", .keyword, .whileKeyword, -1⟩,
   ⟨"for", .keyword, .forKeyword, -1⟩,
   ⟨printSpelling, .keyword, .printKeyword, -1⟩,
   ⟨"length", .keyword, .lengthKeyword, -1⟩,
   ⟨"this", .keyword, .thisKeyword, -1⟩,
   ⟨"new", .keyword, .newKeyword, -1⟩]

private def truthValues : List Entry :=
  [⟨"true", .boolean, .trueLiteral, -1⟩,
   ⟨"false", .boolean, .falseLiteral, -1⟩]

private def dataTypes : List Entry :=
  [⟨"int", .dataType, .intType, -1⟩,
   ⟨"boolean", .dataType, .booleanType, -1⟩,
   ⟨"char", .dataType, .charType, -1⟩,
   ⟨"String", .dataType, .stringType, -1⟩,
   ⟨"double", .dataType, .doubleType, -1⟩]

def entries : List Entry :=
  operators ++ delimiters ++ keywords ++ truthValues ++ dataTypes

def find? (word : String) : Option Entry :=
  entries.find? (·.spelling == word)

def contains (word : String) : Bool :=
  (find? word).isSome

def classify (word : String) : Lexeme :=
  match find? word with
  | some e => ⟨e.kind, e.terminal, word, .none, e.precedence⟩
  | none => ⟨.identifier, .unreserved, word, .none, -1⟩

/-- How a terminal is spelled; what is not reserved is called an identifier. -/
def spelling (terminal : Terminal) : String :=
  ((entries.find? (·.terminal == terminal)).map (·.spelling)).getD "identifier"

end Lexicon

end MiniJava
