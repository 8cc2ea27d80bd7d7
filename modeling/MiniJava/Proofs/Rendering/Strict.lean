import MiniJava.Proofs.Rendering.Program
/-!
# Strict trees

The trees that can be written down as they are, and the tokens that they are written as.
In a strict tree every slot holds a node that may stand there.  It is written with
parentheses only around operands that would group otherwise, and with every semicolon.
-/

namespace MiniJava

/-! ## Words -/

def isName (word : String) : Bool := !Lexicon.contains word

def isElementType (word : String) : Bool :=
  isName word || (Lexicon.classify word).kind == .dataType

def arrayElement? (type : String) : Option String :=
  match type.toList.reverse with
  | ']' :: '[' :: rest => some (String.ofList rest.reverse)
  | _ => none

def elementType (type : String) : String := (arrayElement? type).getD type

def isType (type : String) : Bool := isElementType (elementType type)

def isArrayType (type : String) : Bool := (arrayElement? type).isSome && isType type

def isQualifier (word : String) : Bool :=
  (Lexicon.classify word).kind == .keyword && word != "void"

/-- A literal that can be written: no integer has a sign. -/
def Literal.isWritable : Literal → Bool
  | .integer n => 0 ≤ n
  | _ => true

/-! ## Strictness -/

namespace Node

def isMember : Node → Bool
  | reference name _ _ => name != "this"
  | methodCall .. => true
  | _ => false

def isCallOf (name : String) : Node → Bool
  | methodCall called .. => called == name
  | _ => false

mutual

def isStrictExpression : Node → Bool
  | literal value _ => value.isWritable
  | reference name none _ => name == "this" || isName name
  | reference name (some index) _ => isName name && index.isStrictExpression
  | methodCall name arguments _ =>
    name == "length" && arguments.isEmpty || isName name && areStrictExpressions arguments
  | unary _ operand _ => operand.isStrictExpression
  | binary operator left right _ =>
    left.isStrictExpression && right.isStrictExpression &&
      (operator != .member || right.isMember)
  | newArray type length _ => isArrayType type && length.isStrictExpression
  | newObject type constructor _ =>
    isName type && constructor.isCallOf type && constructor.isStrictExpression
  | _ => false

def areStrictExpressions : List Node → Bool
  | [] => true
  | n :: ns => n.isStrictExpression && areStrictExpressions ns

end

def isStrictDeclaration : Node → Bool
  | variableDeclaration type name _ => isType type && isName name
  | _ => false

mutual

def isStrictStatement : Node → Bool
  | block statements _ => areStrictStatements statements
  | ifStatement condition thenBranch none _ =>
    condition.isStrictExpression && thenBranch.isStrictStatement
  | ifStatement condition thenBranch (some elseBranch) _ =>
    condition.isStrictExpression && thenBranch.isStrictStatement && !thenBranch.endsOpen &&
      elseBranch.isStrictStatement
  | whileStatement condition body _ => condition.isStrictExpression && body.isStrictStatement
  | forStatement first condition update body _ =>
    first.all isStrictExpression && condition.all isStrictExpression &&
      update.all isStrictExpression && body.isStrictStatement
  | returnStatement value _ => value.isStrictExpression
  | printStatement value _ => value.isStrictExpression
  | n => n.isStrictDeclaration || n.isStrictExpression

def areStrictStatements : List Node → Bool
  | [] => true
  | n :: ns => n.isStrictStatement && areStrictStatements ns

end

/-- A body of statements after its variables, with a `return` at its end and nowhere else
among its statements if it needs one. -/
def isStrictBody (needsReturn : Bool) : Node → Bool
  | methodBody locals statements returned _ =>
    locals.all isStrictDeclaration && statements.all isStrictStatement &&
      statements.head?.all (!·.isVariableDeclaration) &&
        if needsReturn then
          statements.all (!·.isReturn) && returned.any fun n => n.isReturn && n.isStrictStatement
        else returned.isNone
  | _ => false

def isStrictMethod : Node → Bool
  | methodDeclaration attributes type name parameters body _ =>
    attributes.head? == some "public" && attributes.tail.all isQualifier &&
      (type == "void" || isType type) && (name == "main" || isName name) &&
        parameters.all isStrictDeclaration && body.isStrictBody true
  | _ => false

def isStrictClass : Node → Bool
  | classDeclaration name base declarations methods _ =>
    isName name && base.all isName && declarations.all isStrictDeclaration &&
      methods.all isStrictMethod
  | _ => false

def isMainParameter : Node → Bool
  | variableDeclaration type name _ => type == "String[]" && isName name
  | _ => false

def isStrictMainMethod : Node → Bool
  | methodDeclaration attributes type name [parameter] body _ =>
    attributes == ["public", "static"] && type == "void" && name == "main" &&
      parameter.isMainParameter && body.isStrictBody false
  | _ => false

def isStrictMainClass : Node → Bool
  | mainClass name method _ => isName name && method.isStrictMainMethod
  | _ => false

end Node

def Program.isStrict (p : Program) : Bool :=
  match p.classes with
  | [] => false
  | first :: others => first.isStrictMainClass && others.all Node.isStrictClass

/-! ## Tokens -/

def wordToken (l : Location) (word : String) : Token := ⟨Lexicon.classify word, l⟩

def symbolToken (l : Location) (x : Terminal) : Token := ⟨x.lexeme, l⟩

def inParentheses (l : Location) (ts : List Token) : List Token :=
  symbolToken l .leftParen :: (ts ++ [symbolToken l .rightParen])

def typeTail (l : Location) (type : String) : List Token :=
  if (arrayElement? type).isSome then [symbolToken l .leftBracket, symbolToken l .rightBracket]
  else []

def typeTokens (l : Location) (type : String) : List Token :=
  wordToken l (elementType type) :: typeTail l type

def separateByCommas (l : Location) : List (List Token) → List Token
  | [] => []
  | [ts] => ts
  | ts :: others => ts ++ symbolToken l .comma :: separateByCommas l others

def Literal.lexeme : Literal → Lexeme
  | .integer n => .literal .integer (toString n) (.int n)
  | .real x => .literal .real (String.ofList x.text) (.real x)
  | .char c => .literal .charLiteral (String.singleton c) (.int c.toNat)
  | .string s => .literal .stringLiteral s (.text s)
  | .boolean b => (if b then Terminal.trueLiteral else .falseLiteral).lexeme

/-- How tightly a negation holds its operand: more than any operator. -/
def negationLevel : Int := 30

/-- How tightly the dot holds what is before it: more than a negation. -/
def memberLevel : Int := 40

namespace BinaryOperator

def leftLevel : BinaryOperator → Int
  | member => memberLevel
  | op => op.precedence

def rightLevel : BinaryOperator → Int
  | member => memberLevel
  | op => op.precedence + 1

end BinaryOperator

namespace Node

/-- How tightly the parts of an expression hold together. -/
def level : Node → Int
  | binary operator .. => operator.leftLevel
  | unary .. => negationLevel
  | _ => memberLevel

/-- The tokens of an expression where it is held at least so tightly. -/
def enclosed (least : Int) (n : Node) (ts : List Token) : List Token :=
  if n.level < least then inParentheses n.location ts else ts

mutual

/-- The tokens of an expression, or of a declaration without its semicolon. -/
def tokens : Node → List Token
  | literal value l => [⟨value.lexeme, l⟩]
  | reference name none l => [wordToken l name]
  | reference name (some index) l =>
    wordToken l name :: symbolToken l .leftBracket ::
      (index.tokens ++ [symbolToken l .rightBracket])
  | methodCall name arguments l =>
    wordToken l name ::
      if name == "length" then [] else inParentheses l (separateByCommas l (tokensOfEach arguments))
  | unary _ operand l => symbolToken l .not :: operand.enclosed negationLevel operand.tokens
  | binary operator left right l =>
    left.enclosed operator.leftLevel left.tokens ++
      symbolToken l operator.terminal :: right.enclosed operator.rightLevel right.tokens
  | newArray type length l =>
    symbolToken l .newKeyword :: wordToken l (elementType type) ::
      symbolToken l .leftBracket :: (length.tokens ++ [symbolToken l .rightBracket])
  | newObject _ constructor l => symbolToken l .newKeyword :: constructor.tokens
  | variableDeclaration type name l => typeTokens l type ++ [wordToken l name]
  | _ => []

def tokensOfEach : List Node → List (List Token)
  | [] => []
  | n :: ns => n.tokens :: tokensOfEach ns

end

def clauseTokens : Option Node → List Token
  | none => []
  | some n => n.tokens

mutual

def statementTokens : Node → List Token
  | block statements l =>
    symbolToken l .leftBrace :: (tokensOfStatements statements ++ [symbolToken l .rightBrace])
  | ifStatement condition thenBranch none l =>
    symbolToken l .ifKeyword :: (inParentheses l condition.tokens ++ thenBranch.statementTokens)
  | ifStatement condition thenBranch (some elseBranch) l =>
    symbolToken l .ifKeyword :: (inParentheses l condition.tokens ++
      (thenBranch.statementTokens ++ symbolToken l .elseKeyword :: elseBranch.statementTokens))
  | whileStatement condition body l =>
    symbolToken l .whileKeyword :: (inParentheses l condition.tokens ++ body.statementTokens)
  | forStatement first condition update body l =>
    symbolToken l .forKeyword :: symbolToken l .leftParen ::
      (clauseTokens first ++ symbolToken l .semicolon ::
        (clauseTokens condition ++ symbolToken l .semicolon ::
          (clauseTokens update ++ symbolToken l .rightParen :: body.statementTokens)))
  | returnStatement value l =>
    symbolToken l .returnKeyword :: (value.tokens ++ [symbolToken l .semicolon])
  | printStatement value l =>
    symbolToken l .printKeyword :: (inParentheses l value.tokens ++ [symbolToken l .semicolon])
  | n => n.tokens ++ [symbolToken n.location .semicolon]

def tokensOfStatements : List Node → List Token
  | [] => []
  | n :: ns => n.statementTokens ++ tokensOfStatements ns

end

def bodyTokens : Node → List Token
  | methodBody locals statements returned l =>
    symbolToken l .leftBrace :: (tokensOfStatements (locals ++ statements) ++
      (returned.elim [] statementTokens ++ [symbolToken l .rightBrace]))
  | _ => []

def methodTokens : Node → List Token
  | methodDeclaration attributes type name parameters body l =>
    attributes.map (wordToken l) ++ (typeTokens l type ++ wordToken l name ::
      (inParentheses l (separateByCommas l (tokensOfEach parameters)) ++ body.bodyTokens))
  | _ => []

def classTokens : Node → List Token
  | mainClass name method l =>
    symbolToken l .classKeyword :: wordToken l name :: symbolToken l .leftBrace ::
      (method.methodTokens ++ [symbolToken l .rightBrace])
  | classDeclaration name base declarations methods l =>
    symbolToken l .classKeyword :: wordToken l name ::
      (base.elim [] (fun b => [symbolToken l .extendsKeyword, wordToken l b]) ++
        symbolToken l .leftBrace :: (tokensOfStatements declarations ++
          (methods.flatMap methodTokens ++ [symbolToken l .rightBrace])))
  | _ => []

end Node

def Program.tokens (p : Program) : List Token := p.classes.flatMap Node.classTokens

end MiniJava
