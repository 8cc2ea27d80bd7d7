import MiniJava.Source
import MiniJava.Numeric.Binary64
/-!
# Syntax trees

A node is a declaration, a statement or an expression, with the place of the
token it is named after. Any node may stand in any slot: which nodes belong where
is a matter of the grammar.
-/

namespace MiniJava

inductive NodeKind where
  | program
  | block
  | classDeclaration
  | mainClass
  | methodDeclaration
  | methodBody
  | methodCall
  | variableDeclaration
  | reference
  | ifStatement
  | whileStatement
  | forStatement
  | returnStatement
  | printStatement
  | allocation
  | binary
  | unary
  | realLiteral
  | integerLiteral
  | charLiteral
  | stringLiteral
  | booleanLiteral
  deriving DecidableEq, Repr

def NodeKind.description : NodeKind → String
  | program => "program"
  | block => "block"
  | classDeclaration => "class declaration"
  | mainClass => "main class"
  | methodDeclaration => "method declaration"
  | methodBody => "method body"
  | methodCall => "method call"
  | variableDeclaration => "variable declaration"
  | reference => "variable"
  | ifStatement => "if statement"
  | whileStatement => "while statement"
  | forStatement => "for statement"
  | returnStatement => "return statement"
  | printStatement => "print statement"
  | allocation => "new statement"
  | binary => "binary expression"
  | unary => "unary expression"
  | realLiteral => "real literal"
  | integerLiteral => "integer literal"
  | charLiteral => "char literal"
  | stringLiteral => "string literal"
  | booleanLiteral => "boolean literal"

inductive BinaryOperator where
  | assign
  | and
  | lessThan
  | add
  | subtract
  | multiply
  | member
  deriving DecidableEq, Repr

def BinaryOperator.symbol : BinaryOperator → String
  | assign => "="
  | and => "&&"
  | lessThan => "<"
  | add => "+"
  | subtract => "-"
  | multiply => "*"
  | member => "."

inductive UnaryOperator where
  | not
  deriving DecidableEq, Repr

def UnaryOperator.symbol : UnaryOperator → String
  | not => "!"

inductive Literal where
  | real (value : Numeric.Binary64)
  | integer (value : Int)
  | char (value : Char)
  | string (value : String)
  | boolean (value : Bool)
  deriving DecidableEq, Repr

def Literal.kind : Literal → NodeKind
  | real _ => .realLiteral
  | integer _ => .integerLiteral
  | char _ => .charLiteral
  | string _ => .stringLiteral
  | boolean _ => .booleanLiteral

inductive Node where
  | mainClass (name : String) (method : Node) (location : Location)
  | classDeclaration (name : String) (base : Option String) (declarations methods : List Node)
      (location : Location)
  | methodDeclaration (attributes : List String) (returnType name : String)
      (parameters : List Node) (body : Node) (location : Location)
  | methodBody (declarations statements : List Node) (returned : Option Node) (location : Location)
  | variableDeclaration (typeName name : String) (location : Location)
  | block (statements : List Node) (location : Location)
  | ifStatement (condition thenBranch : Node) (elseBranch : Option Node) (location : Location)
  | whileStatement (condition body : Node) (location : Location)
  | forStatement (first condition update : Option Node) (body : Node) (location : Location)
  | returnStatement (value : Node) (location : Location)
  | printStatement (value : Node) (location : Location)
  | newObject (typeName : String) (constructor : Node) (location : Location)
  | newArray (typeName : String) (length : Node) (location : Location)
  | methodCall (name : String) (arguments : List Node) (location : Location)
  | reference (name : String) (index : Option Node) (location : Location)
  | binary (operator : BinaryOperator) (left right : Node) (location : Location)
  | unary (operator : UnaryOperator) (operand : Node) (location : Location)
  | literal (value : Literal) (location : Location)

namespace Node

def location : Node → Location
  | mainClass _ _ l => l
  | classDeclaration _ _ _ _ l => l
  | methodDeclaration _ _ _ _ _ l => l
  | methodBody _ _ _ l => l
  | variableDeclaration _ _ l => l
  | block _ l => l
  | ifStatement _ _ _ l => l
  | whileStatement _ _ l => l
  | forStatement _ _ _ _ l => l
  | returnStatement _ l => l
  | printStatement _ l => l
  | newObject _ _ l => l
  | newArray _ _ l => l
  | methodCall _ _ l => l
  | reference _ _ l => l
  | binary _ _ _ l => l
  | unary _ _ l => l
  | literal _ l => l

def kind : Node → NodeKind
  | mainClass .. => .mainClass
  | classDeclaration .. => .classDeclaration
  | methodDeclaration .. => .methodDeclaration
  | methodBody .. => .methodBody
  | variableDeclaration .. => .variableDeclaration
  | block .. => .block
  | ifStatement .. => .ifStatement
  | whileStatement .. => .whileStatement
  | forStatement .. => .forStatement
  | returnStatement .. => .returnStatement
  | printStatement .. => .printStatement
  | newObject .. => .allocation
  | newArray .. => .allocation
  | methodCall .. => .methodCall
  | reference .. => .reference
  | binary .. => .binary
  | unary .. => .unary
  | literal value _ => value.kind

def isVariableDeclaration (n : Node) : Bool := n.kind == .variableDeclaration

def children : Node → List Node
  | mainClass _ method _ => [method]
  | classDeclaration _ _ declarations methods _ => declarations ++ methods
  | methodDeclaration _ _ _ parameters body _ => parameters ++ [body]
  | methodBody declarations statements returned _ => declarations ++ statements ++ returned.toList
  | variableDeclaration .. => []
  | block statements _ => statements
  | ifStatement condition thenBranch elseBranch _ =>
    condition :: thenBranch :: elseBranch.toList
  | whileStatement condition body _ => [condition, body]
  | forStatement first condition update body _ =>
    first.toList ++ condition.toList ++ update.toList ++ [body]
  | returnStatement value _ => [value]
  | printStatement value _ => [value]
  | newObject _ constructor _ => [constructor]
  | newArray _ length _ => [length]
  | methodCall _ arguments _ => arguments
  | reference _ index _ => index.toList
  | binary _ left right _ => [left, right]
  | unary _ operand _ => [operand]
  | literal .. => []

private theorem sizeOf_lt_of_mem_toList {c : Node} {o : Option Node} (h : c ∈ o.toList) :
    sizeOf c < sizeOf o := by
  rw [Option.mem_toList] at h
  subst h
  simp

theorem sizeOf_lt_of_mem_children {c n : Node} (h : c ∈ n.children) : sizeOf c < sizeOf n := by
  have list {xs : List Node} : c ∈ xs → sizeOf c < sizeOf xs := List.sizeOf_lt_of_mem
  have option {o : Option Node} : c ∈ o.toList → sizeOf c < sizeOf o := sizeOf_lt_of_mem_toList
  cases n <;>
    simp only [children, List.mem_append, List.mem_cons, List.not_mem_nil, or_false] at h <;>
    simp only [mainClass.sizeOf_spec, classDeclaration.sizeOf_spec, methodDeclaration.sizeOf_spec,
      methodBody.sizeOf_spec, block.sizeOf_spec, ifStatement.sizeOf_spec,
      whileStatement.sizeOf_spec, forStatement.sizeOf_spec, returnStatement.sizeOf_spec,
      printStatement.sizeOf_spec, newObject.sizeOf_spec, newArray.sizeOf_spec,
      methodCall.sizeOf_spec, reference.sizeOf_spec, binary.sizeOf_spec, unary.sizeOf_spec] <;>
    grind

def size (n : Node) : Nat :=
  n.children.attach.foldr (fun c total => c.val.size + total) 1
termination_by sizeOf n
decreasing_by exact sizeOf_lt_of_mem_children c.property

/-- The nodes of a tree from the root down, each with its distance from the root. -/
def preorder (depth : Nat) (n : Node) : List (Nat × Node) :=
  (depth, n) :: n.children.attach.flatMap fun c => c.val.preorder (depth + 1)
termination_by sizeOf n
decreasing_by exact sizeOf_lt_of_mem_children c.property

end Node

/-- The classes of a source, and the place of its first token. -/
structure Program where
  location : Location
  classes : List Node

namespace Program

def kind (_ : Program) : NodeKind := .program

def isEmpty (p : Program) : Bool := p.classes.isEmpty

/-- How many nodes the program has, itself included. -/
def size (p : Program) : Nat := p.classes.foldr (fun c total => c.size + total) 1

def preorder (p : Program) : List (Nat × Node) := p.classes.flatMap (·.preorder 0)

end Program

end MiniJava
