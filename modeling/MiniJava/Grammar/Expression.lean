import MiniJava.Grammar.Basic
/-!
# Expressions

An operand is a primary followed by member accesses; an expression is a chain of
operands joined by binary operators, grouped by precedence, equal precedences to
the left.

```text
expression ::= operand (operator operand)*
operand    ::= primary ("." ("length" | name))*
primary    ::= literal | name | "this" | "length" | "!" operand | "(" expression ")"
             | "new" (data_type | identifier) "[" expression "]"
             | "new" identifier arguments
name       ::= identifier | identifier arguments | identifier "[" expression "]"
             | identifier identifier | identifier "[" "]" identifier
arguments  ::= "(" (expression ("," expression)*)? ")"
```

A name may turn out to be the declaration of a variable of class type. The
productions below are written over the production of operands, which is defined
last, in terms of itself.
-/

namespace MiniJava.Grammar

open Parse (current advance fail fix)

def binaryOperator? : Terminal → Option BinaryOperator
  | .assign => some .assign
  | .and => some .and
  | .lessThan => some .lessThan
  | .plus => some .add
  | .minus => some .subtract
  | .times => some .multiply
  | _ => none

/-- Goes on with an expression that begins with a given left side, taking operators of at
least a given precedence. A tighter operator after an operand takes that operand as its own
left side. -/
def climb (operand : Parse Node) : Int × Node → Parse Node :=
  fix fun self (least, left) => do
    let t ← current
    if t.precedence < least ∨ t.precedence < 0 then pure left
    else
      let _ ← advance
      match binaryOperator? t.terminal with
      | none => fail ⟨t.location, .unsupported (.binaryOperator t.toLexeme)⟩
      | some operator =>
        let right ← operand
        let next ← current
        let right ←
          if t.precedence < next.precedence then self (t.precedence + 1, right) else pure right
        self (least, .binary operator left right t.location)

def expressionOf (operand : Parse Node) : Parse Node := do
  let left ← operand
  climb operand (0, left)

def arguments (operand : Parse Node) : Parse (List Node) := do
  let _ ← expect .leftParen
  if ← accept .rightParen then pure []
  else
    let found ← commaSeparated (expressionOf operand)
    let _ ← expect .rightParen
    pure found

/-- The length of an array is a call without arguments. -/
def lengthCall : Parse Node := do
  let t ← expect .lengthKeyword
  pure (.methodCall "length" [] t.location)

/-- What follows the opening bracket after a name: an index, or the rest of a declaration
of an array. -/
def bracketed (operand : Parse Node) (name : Token) : Parse Node := do
  if ← accept .rightBracket then
    let declared ← identifier
    pure (.variableDeclaration (name.text ++ "[]") declared name.location)
  else
    let index ← expressionOf operand
    let _ ← expect .rightBracket
    pure (.reference name.text (some index) name.location)

/-- What begins with a name: a declaration, a call, an indexed or a plain variable. -/
def named (operand : Parse Node) : Parse Node := do
  let name ← expectKind .identifier
  let t ← current
  if t.kind = .identifier then
    let _ ← advance
    pure (.variableDeclaration name.text t.text name.location)
  else if t.terminal = .leftParen then
    let found ← arguments operand
    pure (.methodCall name.text found name.location)
  else if ← accept .leftBracket then bracketed operand name
  else pure (.reference name.text none name.location)

def allocatedType : Parse Token := do
  let t ← current
  if t.kind = .dataType then advance else expectKind .identifier

/-- An array, or an object of a class type; data types have no constructors. -/
def allocation (operand : Parse Node) : Parse Node := do
  let start ← expect .newKeyword
  let type ← allocatedType
  if ← accept .leftBracket then
    let length ← expressionOf operand
    let _ ← expect .rightBracket
    pure (.newArray (type.text ++ "[]") length start.location)
  else if type.kind = .dataType then refuse (.terminal .leftBracket)
  else
    let found ← arguments operand
    pure (.newObject type.text (.methodCall type.text found type.location) start.location)

def literalValue? (t : Token) : Option Literal :=
  match t.kind, t.payload with
  | .integer, .int n => some (.integer n)
  | .real, .real x => some (.real x)
  | .charLiteral, .int code => some (.char (.ofNat code.toNat))
  | .stringLiteral, .text s => some (.string s)
  | .boolean, _ => some (.boolean (t.terminal == .trueLiteral))
  | _, _ => none

def literal : Parse Node := do
  let t ← advance
  match literalValue? t with
  | some value => pure (.literal value t.location)
  | none => fail ⟨t.location, .unsupported (.literal t.toLexeme)⟩

def negation (operand : Parse Node) : Parse Node := do
  let t ← expect .not
  let negated ← operand
  pure (.unary .not negated t.location)

def parenthesised (operand : Parse Node) : Parse Node := do
  let _ ← expect .leftParen
  let inner ← expressionOf operand
  let _ ← expect .rightParen
  pure inner

def keywordPrimary (operand : Parse Node) (t : Token) : Parse Node :=
  match t.terminal with
  | .thisKeyword => do
    let _ ← advance
    pure (.reference "this" none t.location)
  | .newKeyword => allocation operand
  | .lengthKeyword => lengthCall
  | _ => fail ⟨t.location, .unsupported (.inExpression t.toLexeme)⟩

/-- The production that the token at the front begins. -/
def primary (operand : Parse Node) : Parse Node := do
  let t ← current
  match t.kind with
  | .integer | .real | .charLiteral | .stringLiteral | .boolean => literal
  | .identifier => named operand
  | .keyword => keywordPrimary operand t
  | .operator =>
    if t.terminal = .not then negation operand
    else fail ⟨t.location, .noExpression t.toLexeme⟩
  | .delimiter =>
    if t.terminal = .leftParen then parenthesised operand
    else fail ⟨t.location, .noExpression t.toLexeme⟩
  | .dataType => fail ⟨t.location, .noExpression t.toLexeme⟩
  | .endOfFile => fail ⟨t.location, .unexpectedEnd t.toLexeme⟩
  | .unknown => fail ⟨t.location, .unsupported (.unknown t.toLexeme)⟩

def memberName (operand : Parse Node) : Parse Node := do
  let t ← current
  if t.terminal = .lengthKeyword then lengthCall
  else if t.kind = .identifier then named operand
  else refuse .memberName

def members (operand : Parse Node) : Node → Parse Node :=
  fix fun self left => do
    let t ← current
    if t.terminal = .dot then
      let _ ← advance
      let member ← memberName operand
      self (.binary .member left member t.location)
    else pure left

/-- A primary and the member accesses after it. -/
def operand : Parse Node :=
  fix (fun self _ => do
    let left ← primary (self ())
    members (self ()) left) ()

def expression : Parse Node := expressionOf operand

end MiniJava.Grammar
