import MiniJava.Json.Basic
import MiniJava.Tree.Basic
/-!
# Trees as JSON values

Each node is shown as an object that begins with its type and goes on with its
slots in source order; an empty slot is null. Places are not shown.
-/

namespace MiniJava

open Json (object array string)

def Literal.typeName : Literal → String
  | real _ => "RealLiteral"
  | integer _ => "IntegerLiteral"
  | char _ => "CharLiteral"
  | string _ => "StringLiteral"
  | boolean _ => "BooleanLiteral"

def Literal.toJson : Literal → Json
  | real x => .real x
  | integer n => .int n
  | char c => .string (String.singleton c)
  | string s => .string s
  | boolean b => .bool b

namespace Node

def typeName : Node → String
  | mainClass .. => "MainClass"
  | classDeclaration .. => "ClassDeclaration"
  | methodDeclaration .. => "MethodDeclaration"
  | methodBody .. => "MethodBody"
  | variableDeclaration .. => "VarDeclaration"
  | block .. => "Block"
  | ifStatement .. => "IfStatement"
  | whileStatement .. => "WhileStatement"
  | forStatement .. => "ForStatement"
  | returnStatement .. => "ReturnStatement"
  | printStatement .. => "PrintStatement"
  | newObject .. => "NewStatement"
  | newArray .. => "NewStatement"
  | methodCall .. => "MethodCall"
  | reference .. => "Variable"
  | binary .. => "BinaryOpExpression"
  | unary .. => "UnaryOpExpression"
  | literal value _ => value.typeName

def tagged (n : Node) (slots : List (String × Json)) : Json :=
  object (("type", string n.typeName) :: slots)

mutual

def fields : Node → List (String × Json)
  | mainClass name method _ =>
    [("class name", string name), ("main method", tagged method (fields method))]
  | classDeclaration name base declarations methods _ =>
    [("class name", string name), ("base class", (base.map string).getD .null),
      ("member variables", array (toJsonAll declarations)),
      ("member methods", array (toJsonAll methods))]
  | methodDeclaration attributes returnType name parameters body _ =>
    [("attributes", array (attributes.map string)), ("return type", string returnType),
      ("method name", string name), ("parameters", array (toJsonAll parameters)),
      ("body", tagged body (fields body))]
  | methodBody declarations statements returned _ =>
    [("variables", array (toJsonAll declarations)), ("statements", array (toJsonAll statements)),
      ("return", toJsonOption returned)]
  | variableDeclaration typeName name _ =>
    [("variable type", string typeName), ("variable name", string name)]
  | block statements _ => [("statements", array (toJsonAll statements))]
  | ifStatement condition thenBranch elseBranch _ =>
    [("condition", tagged condition (fields condition)),
      ("then", tagged thenBranch (fields thenBranch)), ("else", toJsonOption elseBranch)]
  | whileStatement condition body _ =>
    [("condition", tagged condition (fields condition)), ("body", tagged body (fields body))]
  | forStatement first condition update body _ =>
    [("init", toJsonOption first), ("condition", toJsonOption condition),
      ("update", toJsonOption update), ("body", tagged body (fields body))]
  | returnStatement value _ => [("expression", tagged value (fields value))]
  | printStatement value _ => [("expression", tagged value (fields value))]
  | newObject typeName constructor _ =>
    [("new type", string typeName), ("constructor", tagged constructor (fields constructor))]
  | newArray typeName length _ =>
    [("new type", string typeName), ("length", tagged length (fields length))]
  | methodCall name arguments _ =>
    [("method name", string name), ("arguments", array (toJsonAll arguments))]
  | reference name index _ => [("name", string name), ("index", toJsonOption index)]
  | binary operator left right _ =>
    [("operator", string operator.symbol), ("lhs", tagged left (fields left)),
      ("rhs", tagged right (fields right))]
  | unary operator operand _ =>
    [("operator", string operator.symbol), ("operand", tagged operand (fields operand))]
  | literal value _ => [("value", value.toJson)]

def toJsonAll : List Node → List Json
  | [] => []
  | n :: ns => tagged n (fields n) :: toJsonAll ns

def toJsonOption : Option Node → Json
  | none => .null
  | some n => tagged n (fields n)

end

def toJson (n : Node) : Json := tagged n (fields n)

def display (n : Node) : String := String.ofList n.toJson.compact

end Node

namespace Program

def toJson (p : Program) : Json :=
  object [("type", string "Program"), ("classes", array (Node.toJsonAll p.classes))]

def display (p : Program) : String := String.ofList p.toJson.compact

end Program

end MiniJava
