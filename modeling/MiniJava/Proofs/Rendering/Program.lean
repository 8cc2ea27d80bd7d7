import MiniJava.Proofs.Rendering.Expression
/-!
# Written programs

Which token lists a program may be written as.  An `else` belongs to the nearest `if`.  In
a loose rendering the semicolon after an expression may be missing; any number of semicolons
may stand after a class.
-/

namespace MiniJava

namespace Node

/-- Whether an `else` after a statement would belong to an `if` inside it. -/
def endsOpen : Node → Bool
  | ifStatement _ _ none _ => true
  | ifStatement _ _ (some elseBranch) _ => elseBranch.endsOpen
  | whileStatement _ body _ => body.endsOpen
  | forStatement _ _ _ body _ => body.endsOpen
  | _ => false

def isReturn : Node → Bool
  | returnStatement .. => true
  | _ => false

theorem endsOpen_of_isExpression {n : Node} (h : n.isExpression = true) : n.endsOpen = false := by
  cases n <;> simp [isExpression] at h <;> rfl

theorem endsOpen_of_isReturn {n : Node} (h : n.isReturn = true) : n.endsOpen = false := by
  cases n with
  | returnStatement => rfl
  | _ => simp [isReturn] at h

theorem isReturn_of_isExpression {n : Node} (h : n.isExpression = true) :
    n.isReturn = false := by
  cases n <;> simp [isExpression] at h <;> rfl

theorem kind_of_isExpression {n : Node} (h : n.isExpression = true) :
    n.kind ≠ .classDeclaration := by
  cases n with
  | literal value => cases value <;> simp [kind, Literal.kind]
  | _ => simp [isExpression] at h <;> simp [kind]

end Node

namespace Rendering

variable {α : Type}

inductive Sequence (item : α → List Token → Prop) : List α → List Token → Prop
  | nil : Sequence item [] []
  | cons {a as ts us} : item a ts → Sequence item as us → Sequence item (a :: as) (ts ++ us)

theorem Sequence.mono {item other : α → List Token → Prop} {as : List α} {ts : List Token}
    (h : Sequence item as ts) (himp : ∀ a ∈ as, ∀ ts, item a ts → other a ts) :
    Sequence other as ts := by
  induction h with
  | nil => exact .nil
  | cons ha _ ih =>
      obtain ⟨hfirst, hothers⟩ := List.forall_mem_cons.1 himp
      exact .cons (hfirst _ ha) (ih hothers)

def Clause : Option Node → List Token → Prop
  | none, ts => ts = []
  | some n, ts => Expression 0 n ts

inductive Condition : Node → List Token → Prop
  | mk {n opening ts closing} : opening.Spells .leftParen → Expression 0 n ts →
      closing.Spells .rightParen → Condition n (opening :: (ts ++ [closing]))

inductive TypeTail : String → List Token → Prop
  | plain : TypeTail "" []
  | array {opening closing} : opening.Spells .leftBracket → closing.Spells .rightBracket →
      TypeTail "[]" [opening, closing]

inductive TypeName : String → List Token → Prop
  | mk {t tail ts} : ElementType t → TypeTail tail ts → TypeName (t.text ++ tail) (t :: ts)

/-- A type and a name, placed at the type. -/
inductive Declaration : Node → List Token → Prop
  | mk {type t ts name u} : TypeName type (t :: ts) → u.Names name →
      Declaration (.variableDeclaration type name t.location) (t :: (ts ++ [u]))

/-- Statements; in a loose rendering an expression may lack its semicolon. -/
inductive Statement (loose : Bool) : Node → List Token → Prop
  | declaration {n t ts semicolon} : Declaration n (t :: ts) → DataType t →
      semicolon.Spells .semicolon → Statement loose n (t :: (ts ++ [semicolon]))
  | ifThen {tested thenBranch t ts us} : t.Spells .ifKeyword → Condition tested ts →
      Statement loose thenBranch us →
      Statement loose (.ifStatement tested thenBranch none t.location) (t :: (ts ++ us))
  | ifElse {tested thenBranch elseBranch t ts us middle vs} : t.Spells .ifKeyword →
      Condition tested ts → Statement loose thenBranch us → thenBranch.endsOpen = false →
      middle.Spells .elseKeyword → Statement loose elseBranch vs →
      Statement loose (.ifStatement tested thenBranch (some elseBranch) t.location)
        (t :: (ts ++ (us ++ middle :: vs)))
  | whileLoop {tested body t ts us} : t.Spells .whileKeyword → Condition tested ts →
      Statement loose body us →
      Statement loose (.whileStatement tested body t.location) (t :: (ts ++ us))
  | forLoop {first tested update body t opening ts semicolon us semicolon' vs closing ws} :
      t.Spells .forKeyword → opening.Spells .leftParen → Clause first ts →
      semicolon.Spells .semicolon → Clause tested us → semicolon'.Spells .semicolon →
      Clause update vs → closing.Spells .rightParen → Statement loose body ws →
      Statement loose (.forStatement first tested update body t.location)
        (t :: opening :: (ts ++ semicolon :: (us ++ semicolon' :: (vs ++ closing :: ws))))
  | print {value t ts semicolon} : t.Spells .printKeyword → Condition value ts →
      semicolon.Spells .semicolon →
      Statement loose (.printStatement value t.location) (t :: (ts ++ [semicolon]))
  | return {value t ts semicolon} : t.Spells .returnKeyword → Expression 0 value ts →
      semicolon.Spells .semicolon →
      Statement loose (.returnStatement value t.location) (t :: (ts ++ [semicolon]))
  | block {statements opening ts closing} : opening.Spells .leftBrace →
      Sequence (Statement loose) statements ts → closing.Spells .rightBrace →
      Statement loose (.block statements opening.location) (opening :: (ts ++ [closing]))
  | expression {n ts semicolon} : Expression 0 n ts → semicolon.Spells .semicolon →
      Statement loose n (ts ++ [semicolon])
  | bare {n ts} : loose = true → Expression 0 n ts → Statement loose n ts

section

variable {loose : Bool} {n : Node} {ts : List Token}

theorem Statement.kind_ne (h : Statement loose n ts) : n.kind ≠ .classDeclaration := by
  cases h with
  | declaration hn => cases hn; simp [Node.kind]
  | expression hn => exact Node.kind_of_isExpression hn.isExpression
  | bare _ hn => exact Node.kind_of_isExpression hn.isExpression
  | _ => simp [Node.kind]

theorem Statement.eq_cons_of_isReturn (h : Statement loose n ts) (hn : n.isReturn = true) :
    ∃ t us, ts = t :: us ∧ t.Spells .returnKeyword := by
  cases h with
  | declaration hn' => cases hn'; simp [Node.isReturn] at hn
  | expression hn' =>
      rw [Node.isReturn_of_isExpression hn'.isExpression] at hn
      exact absurd hn Bool.false_ne_true
  | bare _ hn' =>
      rw [Node.isReturn_of_isExpression hn'.isExpression] at hn
      exact absurd hn Bool.false_ne_true
  | «return» ht => exact ⟨_, _, rfl, ht⟩
  | _ => simp [Node.isReturn] at hn

end

/-- The `return` that ends a body that needs one. -/
def Returned (loose needsReturn : Bool) : Option Node → List Token → Prop
  | none, ts => needsReturn = false ∧ ts = []
  | some n, ts => needsReturn = true ∧ n.isReturn = true ∧ Statement loose n ts

/-- A method body.  Its variables are the declarations that open it. -/
inductive Body (loose needsReturn : Bool) : Node → List Token → Prop
  | mk {locals statements returned opening ts us closing} :
      opening.Spells .leftBrace → Sequence (Statement loose) (locals ++ statements) ts →
      (∀ n ∈ locals, n.isVariableDeclaration = true) →
      (∀ n ∈ statements.head?, n.isVariableDeclaration = false) →
      (needsReturn = true → ∀ n ∈ locals ++ statements, n.isReturn = false) →
      Returned loose needsReturn returned us → closing.Spells .rightBrace →
      Body loose needsReturn (.methodBody locals statements returned opening.location)
        (opening :: (ts ++ (us ++ [closing])))

def Attribute (t : Token) : Prop :=
  ∃ x : Terminal, x.lexeme.kind = .keyword ∧ x ≠ .voidKeyword ∧ t.Spells x

inductive ReturnType : String → List Token → Prop
  | void {t} : t.Spells .voidKeyword → ReturnType "void" [t]
  | named {type ts} : TypeName type ts → ReturnType type ts

inductive MethodName : String → Token → Prop
  | main {t} : t.Spells .mainKeyword → MethodName "main" t
  | named {name t} : t.Names name → MethodName name t

inductive Parameters : List Node → List Token → Prop
  | none {opening closing} : opening.Spells .leftParen → closing.Spells .rightParen →
      Parameters [] [opening, closing]
  | some {ns opening ts closing} : opening.Spells .leftParen → Separated Declaration ns ts →
      closing.Spells .rightParen → Parameters ns (opening :: (ts ++ [closing]))

inductive Method (loose : Bool) : Node → List Token → Prop
  | mk {type name parameters body t attributes ts u us vs} : t.Spells .publicKeyword →
      (∀ a ∈ attributes, Attribute a) → ReturnType type ts → MethodName name u →
      Parameters parameters us → Body loose true body vs →
      Method loose
        (.methodDeclaration ("public" :: attributes.map (·.text)) type name parameters body
          t.location)
        (t :: (attributes ++ (ts ++ u :: (us ++ vs))))

inductive Base : Option String → List Token → Prop
  | none : Base .none []
  | extends {name t u} : t.Spells .extendsKeyword → u.Names name → Base (.some name) [t, u]

inductive Class (loose : Bool) : Node → List Token → Prop
  | mk {name base declarations methods t u ts opening us vs closing} :
      t.Spells .classKeyword → u.Names name → Base base ts → opening.Spells .leftBrace →
      Sequence (Statement loose) declarations us →
      (∀ n ∈ declarations, n.isVariableDeclaration = true) →
      Sequence (Method loose) methods vs → closing.Spells .rightBrace →
      Class loose (.classDeclaration name base declarations methods t.location)
        (t :: u :: (ts ++ opening :: (us ++ (vs ++ [closing]))))

inductive MainMethod (loose : Bool) : Node → List Token → Prop
  | mk {name body start static void main opening type left right u closing ts} :
      start.Spells .publicKeyword → static.Spells .staticKeyword → void.Spells .voidKeyword →
      main.Spells .mainKeyword → opening.Spells .leftParen → type.Spells .stringType →
      left.Spells .leftBracket → right.Spells .rightBracket → u.Names name →
      closing.Spells .rightParen → Body loose false body ts →
      MainMethod loose
        (.methodDeclaration ["public", "static"] "void" "main"
          [.variableDeclaration "String[]" name type.location] body start.location)
        (start :: static :: void :: main :: opening :: type :: left :: right :: u :: closing :: ts)

inductive MainClass (loose : Bool) : Node → List Token → Prop
  | mk {name method t u opening ts closing} : t.Spells .classKeyword → u.Names name →
      opening.Spells .leftBrace → MainMethod loose method ts → closing.Spells .rightBrace →
      MainClass loose (.mainClass name method t.location) (t :: u :: opening :: (ts ++ [closing]))

/-- Classes with any number of semicolons before, between and after them. -/
inductive Classes (loose : Bool) : List Node → List Token → Prop
  | nil : Classes loose [] []
  | semicolon {ns t ts} : t.Spells .semicolon → Classes loose ns ts → Classes loose ns (t :: ts)
  | cons {n ns ts us} : Class loose n ts → Classes loose ns us →
      Classes loose (n :: ns) (ts ++ us)

/-- A program is its main class and other classes, placed at its first token. -/
inductive Program (loose : Bool) : MiniJava.Program → List Token → Prop
  | mk {first others ts us} : MainClass loose first ts → Classes loose others us →
      Program loose ⟨first.location, first :: others⟩ (ts ++ us)

end Rendering

end MiniJava
