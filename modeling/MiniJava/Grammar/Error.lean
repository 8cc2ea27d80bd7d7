import MiniJava.Token.Lexicon
import MiniJava.Tree.Basic
/-!
# Syntax errors

Why a production failed, where, and the message for it. A complaint tells the
word that was found but not its place, which the error carries once.
-/

namespace MiniJava.Grammar

/-- What a production may ask for. -/
inductive Expectation where
  | terminal (terminal : Terminal)
  | kind (kind : TokenKind)
  | memberName
  deriving DecidableEq, Repr

def Expectation.text : Expectation → String
  | terminal t => Lexicon.spelling t
  | kind k => k.description
  | memberName => "member name"

/-- Words that no production has a use for, by the place where they were met. -/
inductive Construct where
  | inExpression (found : Lexeme)
  | binaryOperator (found : Lexeme)
  | literal (found : Lexeme)
  | unknown (found : Lexeme)
  deriving DecidableEq, Repr

def Construct.text : Construct → String
  | inExpression found => found.describe ++ " in an expression"
  | binaryOperator found => "binary " ++ found.describe
  | literal found => "literal " ++ found.describe
  | unknown found => found.describe

inductive Complaint where
  | emptyFile
  | expected (what : Expectation) (found : Lexeme)
  | noExpression (found : Lexeme)
  | unexpectedEnd (found : Lexeme)
  | wrongNode (wanted found : NodeKind)
  | unsupported (construct : Construct)
  deriving DecidableEq, Repr

private def expectation (wanted found : String) : String :=
  "Expected ' " ++ wanted ++ " ', but find " ++ found

def Complaint.message : Complaint → String
  | emptyFile => "The file is empty."
  | expected what found => expectation what.text found.describe
  | noExpression found => "unknown token when expecting an expression, find " ++ found.describe
  | unexpectedEnd found => "Find unexpected " ++ found.describe
  | wrongNode wanted found => expectation wanted.description found.description
  | unsupported construct => "unsupported construct: " ++ construct.text

structure SyntaxError where
  location : Location
  complaint : Complaint
  deriving DecidableEq, Repr

namespace SyntaxError

def message (e : SyntaxError) : String := e.complaint.message

def isUnsupported (e : SyntaxError) : Bool :=
  match e.complaint with
  | .unsupported _ => true
  | _ => false

def text (e : SyntaxError) : String := e.location.text ++ ": " ++ e.message

end SyntaxError

end MiniJava.Grammar
