import MiniJava.Grammar.Statement
/-!
# Classes and methods

```text
main_class  ::= "class" identifier "{" main_method "}"
main_method ::= "public" "static" "void" "main" "(" "String" "[" "]" identifier ")" body
class       ::= "class" identifier ("extends" identifier)? "{" statement* method* "}"
method      ::= "public" keyword* ("void" | type) ("main" | identifier) parameters body
parameters  ::= "(" (type identifier ("," type identifier)*)? ")"
body        ::= "{" statement* ("return" expression ";")? "}"
```

Of the statements before the first method of a class only variable declarations
are kept. The declarations that open a body are its variables. The body of the
main method has no `return` of its own and that of any other method needs one; a
missing one is reported, and the method is kept.
-/

namespace MiniJava.Grammar

open Parse (current advance)

/-- The `return` that ends a body, if it is there and well formed. -/
def bodyReturn : Parse (Option Node) := do
  if ← check .returnKeyword then recovering toStatement (some <$> returnStatement)
  else
    let e ← unexpected (.terminal .returnKeyword)
    Parse.report e
    pure none

def endsBody (needsReturn : Bool) (t : Token) : Bool :=
  t.terminal == .rightBrace || needsReturn && t.terminal == .returnKeyword

def methodBody (needsReturn : Bool) : Parse Node := do
  let t ← expect .leftBrace
  let found ← items (endsBody needsReturn) toStatement (some <$> statement)
  let returned ← if needsReturn then bodyReturn else pure none
  let _ ← expect .rightBrace
  pure (.methodBody (found.takeWhile Node.isVariableDeclaration)
    (found.dropWhile Node.isVariableDeclaration) returned t.location)

def mainMethod : Parse Node := do
  let start ← expect .publicKeyword
  let _ ← expect .staticKeyword
  let _ ← expect .voidKeyword
  let _ ← expect .mainKeyword
  let _ ← expect .leftParen
  let type ← expect .stringType
  let _ ← expect .leftBracket
  let _ ← expect .rightBracket
  let name ← identifier
  let _ ← expect .rightParen
  let body ← methodBody false
  pure (.methodDeclaration ["public", "static"] "void" "main"
    [.variableDeclaration "String[]" name type.location] body start.location)

def mainClass : Parse Node := do
  let t ← expect .classKeyword
  let name ← identifier
  let _ ← expect .leftBrace
  let method ← mainMethod
  let _ ← expect .rightBrace
  pure (.mainClass name method t.location)

def isAttribute (t : Token) : Bool := t.kind == .keyword && t.terminal != .voidKeyword

/-- The keywords after `public`, as they are written. -/
def attributes : Parse (List String) :=
  Parse.fix (fun self _ => do
    let t ← current
    if isAttribute t then
      let _ ← advance
      (t.text :: ·) <$> self ()
    else pure []) ()

def returnType : Parse String := do
  if ← accept .voidKeyword then pure "void" else typeName

def methodName : Parse String := do
  if ← accept .mainKeyword then pure "main" else identifier

def parameters : Parse (List Node) := do
  let _ ← expect .leftParen
  if ← accept .rightParen then pure []
  else
    let found ← commaSeparated declaration
    let _ ← expect .rightParen
    pure found

def method : Parse Node := do
  let t ← expect .publicKeyword
  let others ← attributes
  let type ← returnType
  let name ← methodName
  let found ← parameters
  let body ← methodBody true
  pure (.methodDeclaration ("public" :: others) type name found body t.location)

def baseClass : Parse (Option String) := do
  if ← accept .extendsKeyword then some <$> identifier else pure none

/-- A token before which the variables of a class end. -/
def endsVariables (t : Token) : Bool :=
  t.terminal == .publicKeyword || t.terminal == .rightBrace

def memberVariable : Parse (Option Node) := do
  let found ← statement
  keep .variableDeclaration found

def memberVariables : Parse (List Node) := items endsVariables toStatement memberVariable

def memberMethods : Parse (List Node) :=
  items (·.terminal == .rightBrace) (toMember 0) (some <$> method)

def classDeclaration : Parse Node := do
  let t ← expect .classKeyword
  let name ← identifier
  let base ← baseClass
  let _ ← expect .leftBrace
  let declarations ← memberVariables
  let methods ← memberMethods
  let _ ← expect .rightBrace
  pure (.classDeclaration name base declarations methods t.location)

end MiniJava.Grammar
