import MiniJava.Grammar.Expression
import MiniJava.Proofs.Token.WellFormed
/-!
# Written expressions

Which token lists an expression may be written as.  Operators outside parentheses group by
precedence, equal precedences to the left, and any expression may stand in parentheses.
Each node has the place of the token it is named after.
-/

namespace MiniJava

def Literal.WrittenAs (value : Literal) (t : Token) : Prop :=
  match value with
  | .integer n => 0 ≤ n ∧ ∃ text, t.toLexeme = .literal .integer text (.int n)
  | .real x => ∃ text, t.toLexeme = .literal .real text (.real x)
  | .char c => t.toLexeme = .literal .charLiteral (String.singleton c) (.int c.toNat)
  | .string s => t.toLexeme = .literal .stringLiteral s (.text s)
  | .boolean b => t.Spells (if b then .trueLiteral else .falseLiteral)

namespace BinaryOperator

def terminal : BinaryOperator → Terminal
  | assign => .assign
  | and => .and
  | lessThan => .lessThan
  | add => .plus
  | subtract => .minus
  | multiply => .times
  | member => .dot

/-- How tightly an operator binds; the dot is no operator between expressions. -/
def precedence (op : BinaryOperator) : Int := op.terminal.lexeme.precedence

end BinaryOperator

def Node.isExpression : Node → Bool
  | variableDeclaration .. | newObject .. | newArray .. | methodCall .. | reference ..
  | binary .. | unary .. | literal .. => true
  | _ => false

namespace Rendering

variable {α : Type}

inductive Separated (item : α → List Token → Prop) : List α → List Token → Prop
  | one {a ts} : item a ts → Separated item [a] ts
  | more {a as ts us comma} : item a ts → comma.Spells .comma → Separated item as us →
      Separated item (a :: as) (ts ++ comma :: us)

def DataType (t : Token) : Prop := ∃ x : Terminal, x.lexeme.kind = .dataType ∧ t.Spells x

def ElementType (t : Token) : Prop := DataType t ∨ t.Names t.text

mutual

/-- An expression whose operators outside parentheses bind at least as tightly as `least`. -/
inductive Expression : Int → Node → List Token → Prop
  | operand {least n ts} : Operand n ts → Expression least n ts
  | binary {least op left right t ts us} : least ≤ BinaryOperator.precedence op →
      Expression op.precedence left ts → t.Spells op.terminal →
      Expression (op.precedence + 1) right us →
      Expression least (.binary op left right t.location) (ts ++ t :: us)

/-- What may stand beside an operator. A negation extends over the members after it. -/
inductive Operand : Node → List Token → Prop
  | accessed {n ts} : Accessed n ts → Operand n ts
  | negation {n t ts} : t.Spells .not → Operand n ts →
      Operand (.unary .not n t.location) (t :: ts)

inductive Accessed : Node → List Token → Prop
  | primary {n ts} : Primary n ts → Accessed n ts
  | member {left right t ts us} : Accessed left ts → t.Spells .dot → Member right us →
      Accessed (.binary .member left right t.location) (ts ++ t :: us)

inductive Member : Node → List Token → Prop
  | length {t} : t.Spells .lengthKeyword → Member (.methodCall "length" [] t.location) [t]
  | named {n ts} : Named n ts → Member n ts

inductive Primary : Node → List Token → Prop
  | literal {value t} : Literal.WrittenAs value t → Primary (.literal value t.location) [t]
  | this {t} : t.Spells .thisKeyword → Primary (.reference "this" none t.location) [t]
  | length {t} : t.Spells .lengthKeyword → Primary (.methodCall "length" [] t.location) [t]
  | named {n ts} : Named n ts → Primary n ts
  | parenthesised {n opening ts closing} : opening.Spells .leftParen → Expression 0 n ts →
      closing.Spells .rightParen → Primary n (opening :: (ts ++ [closing]))
  | array {n t type opening ts closing} : t.Spells .newKeyword → ElementType type →
      opening.Spells .leftBracket → Expression 0 n ts → closing.Spells .rightBracket →
      Primary (.newArray (type.text ++ "[]") n t.location)
        (t :: type :: opening :: (ts ++ [closing]))
  | object {ns t type name ts} : t.Spells .newKeyword → type.Names name → Arguments ns ts →
      Primary (.newObject name (.methodCall name ns type.location) t.location)
        (t :: type :: ts)

inductive Named : Node → List Token → Prop
  | plain {name t} : t.Names name → Named (.reference name none t.location) [t]
  | call {name ns t ts} : t.Names name → Arguments ns ts →
      Named (.methodCall name ns t.location) (t :: ts)
  | index {name n t opening ts closing} : t.Names name → opening.Spells .leftBracket →
      Expression 0 n ts → closing.Spells .rightBracket →
      Named (.reference name (some n) t.location) (t :: opening :: (ts ++ [closing]))
  | declaration {type name t u} : t.Names type → u.Names name →
      Named (.variableDeclaration type name t.location) [t, u]
  | arrayDeclaration {type name t opening closing u} : t.Names type →
      opening.Spells .leftBracket → closing.Spells .rightBracket → u.Names name →
      Named (.variableDeclaration (type ++ "[]") name t.location) [t, opening, closing, u]

inductive Arguments : List Node → List Token → Prop
  | none {opening closing} : opening.Spells .leftParen → closing.Spells .rightParen →
      Arguments [] [opening, closing]
  | some {ns opening ts closing} : opening.Spells .leftParen →
      Separated (Expression 0) ns ts → closing.Spells .rightParen →
      Arguments ns (opening :: (ts ++ [closing]))

end

theorem Named.isExpression {n : Node} {ts : List Token} (h : Named n ts) :
    n.isExpression = true := by
  cases h <;> rfl

mutual

theorem Expression.isExpression {least : Int} {n : Node} {ts : List Token} :
    Expression least n ts → n.isExpression = true
  | .operand h => h.isExpression
  | .binary .. => rfl

theorem Operand.isExpression {n : Node} {ts : List Token} : Operand n ts → n.isExpression = true
  | .accessed h => h.isExpression
  | .negation .. => rfl

theorem Accessed.isExpression {n : Node} {ts : List Token} :
    Accessed n ts → n.isExpression = true
  | .primary h => h.isExpression
  | .member .. => rfl

theorem Primary.isExpression {n : Node} {ts : List Token} : Primary n ts → n.isExpression = true
  | .literal _ => rfl
  | .this _ => rfl
  | .length _ => rfl
  | .named h => h.isExpression
  | .parenthesised _ h _ => h.isExpression
  | .array .. => rfl
  | .object .. => rfl

end

/-! ## Induction along chains -/

/-- Both sides of its operators taken apart, an expression is a chain of operands. -/
@[elab_as_elim]
theorem Expression.chain {motive : ∀ least n ts, Expression least n ts → Prop}
    (operand : ∀ {least n ts} (h : Operand n ts), motive least n ts (.operand h))
    (binary : ∀ {least op left right} {t : Token} {ts us}
      (hleast : least ≤ BinaryOperator.precedence op)
      (hleft : Expression op.precedence left ts) (ht : t.Spells op.terminal)
      (hright : Expression (op.precedence + 1) right us),
      motive _ _ _ hleft → motive _ _ _ hright →
      motive _ _ _ (.binary hleast hleft ht hright))
    {least : Int} {n : Node} {ts : List Token} : (h : Expression least n ts) → motive least n ts h
  | .operand h => operand h
  | .binary hleast hleft ht hright =>
    binary hleast hleft ht hright (chain operand binary hleft) (chain operand binary hright)

/-- What a member is taken of being taken apart, members are a chain after a primary. -/
@[elab_as_elim]
theorem Accessed.chain {motive : ∀ n ts, Accessed n ts → Prop}
    (primary : ∀ {n ts} (h : Primary n ts), motive n ts (.primary h))
    (member : ∀ {left right} {t : Token} {ts us} (hleft : Accessed left ts) (ht : t.Spells .dot)
      (hright : Member right us), motive _ _ hleft → motive _ _ (.member hleft ht hright))
    {n : Node} {ts : List Token} : (h : Accessed n ts) → motive n ts h
  | .primary h => primary h
  | .member hleft ht hright => member hleft ht hright (chain primary member hleft)

end Rendering

end MiniJava
