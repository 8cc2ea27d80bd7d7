import MiniJava.Grammar.Expression
import MiniJava.Grammar.Recovery
/-!
# Statements

```text
statement ::= data_type ("[" "]")? identifier ";"
            | "if" condition statement ("else" statement)?
            | "while" condition statement
            | "for" "(" expression? ";" expression? ";" expression? ")" statement
            | "System.out.println" condition ";"
            | "return" expression ";"
            | "{" statement* "}"
            | expression ";"?
condition ::= "(" expression ")"
```

A statement that fails inside a block is reported, and the block goes on after it.
-/

namespace MiniJava.Grammar

open Parse (current advance fix)

def typeName : Parse String := do
  let t ← current
  if t.kind = .dataType ∨ t.kind = .identifier then
    let _ ← advance
    if ← accept .leftBracket then
      let _ ← expect .rightBracket
      pure (t.text ++ "[]")
    else pure t.text
  else refuse (.kind .dataType)

/-- A type and a name, placed at the type. -/
def declaration : Parse Node := do
  let t ← current
  let type ← typeName
  let name ← identifier
  pure (.variableDeclaration type name t.location)

def declarationStatement : Parse Node := do
  let declared ← declaration
  let _ ← expect .semicolon
  pure declared

def condition : Parse Node := do
  let _ ← expect .leftParen
  let inner ← expression
  let _ ← expect .rightParen
  pure inner

def ifStatement (statement : Parse Node) : Parse Node := do
  let t ← expect .ifKeyword
  let tested ← condition
  let thenBranch ← statement
  if ← accept .elseKeyword then
    let elseBranch ← statement
    pure (.ifStatement tested thenBranch (some elseBranch) t.location)
  else pure (.ifStatement tested thenBranch none t.location)

def whileStatement (statement : Parse Node) : Parse Node := do
  let t ← expect .whileKeyword
  let tested ← condition
  let body ← statement
  pure (.whileStatement tested body t.location)

/-- An expression, unless the token that ends the clause comes first. -/
def clause (terminator : Terminal) : Parse (Option Node) := do
  if ← check terminator then pure none else some <$> expression

def forStatement (statement : Parse Node) : Parse Node := do
  let t ← expect .forKeyword
  let _ ← expect .leftParen
  let first ← clause .semicolon
  let _ ← expect .semicolon
  let tested ← clause .semicolon
  let _ ← expect .semicolon
  let update ← clause .rightParen
  let _ ← expect .rightParen
  let body ← statement
  pure (.forStatement first tested update body t.location)

def printStatement : Parse Node := do
  let t ← expect .printKeyword
  let value ← condition
  let _ ← expect .semicolon
  pure (.printStatement value t.location)

def returnStatement : Parse Node := do
  let t ← expect .returnKeyword
  let value ← expression
  let _ ← expect .semicolon
  pure (.returnStatement value t.location)

def blockItems (statement : Parse Node) : Parse (List Node) :=
  items (·.terminal == .rightBrace) toStatement (some <$> statement)

def block (statement : Parse Node) : Parse Node := do
  let t ← expect .leftBrace
  let found ← blockItems statement
  let _ ← expect .rightBrace
  pure (.block found t.location)

/-- An expression; the semicolon after it may be missing. -/
def expressionStatement : Parse Node := do
  let found ← expression
  let _ ← accept .semicolon
  pure found

def statementOf (statement : Parse Node) : Parse Node := do
  let t ← current
  match t.terminal with
  | .ifKeyword => ifStatement statement
  | .whileKeyword => whileStatement statement
  | .forKeyword => forStatement statement
  | .printKeyword => printStatement
  | .returnKeyword => returnStatement
  | .leftBrace => block statement
  | _ => if t.kind = .dataType then declarationStatement else expressionStatement

def statement : Parse Node := fix (fun self _ => statementOf (self ())) ()

end MiniJava.Grammar
