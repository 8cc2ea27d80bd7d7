import MiniJava.Tree.Basic
/-!
# Equality of trees

Two trees are equal if they agree node for node, places included. Equality is
decided by walking both trees together.
-/

namespace MiniJava

namespace Node

mutual

def same : Node → Node → Bool
  | mainClass n m l, mainClass n' m' l' => n == n' && same m m' && l == l'
  | classDeclaration n b vs ms l, classDeclaration n' b' vs' ms' l' =>
    n == n' && b == b' && sameAll vs vs' && sameAll ms ms' && l == l'
  | methodDeclaration a r n ps b l, methodDeclaration a' r' n' ps' b' l' =>
    a == a' && r == r' && n == n' && sameAll ps ps' && same b b' && l == l'
  | methodBody vs ss r l, methodBody vs' ss' r' l' =>
    sameAll vs vs' && sameAll ss ss' && sameOption r r' && l == l'
  | variableDeclaration t n l, variableDeclaration t' n' l' => t == t' && n == n' && l == l'
  | block ss l, block ss' l' => sameAll ss ss' && l == l'
  | ifStatement c t e l, ifStatement c' t' e' l' =>
    same c c' && same t t' && sameOption e e' && l == l'
  | whileStatement c b l, whileStatement c' b' l' => same c c' && same b b' && l == l'
  | forStatement f c u b l, forStatement f' c' u' b' l' =>
    sameOption f f' && sameOption c c' && sameOption u u' && same b b' && l == l'
  | returnStatement v l, returnStatement v' l' => same v v' && l == l'
  | printStatement v l, printStatement v' l' => same v v' && l == l'
  | newObject t c l, newObject t' c' l' => t == t' && same c c' && l == l'
  | newArray t n l, newArray t' n' l' => t == t' && same n n' && l == l'
  | methodCall n as l, methodCall n' as' l' => n == n' && sameAll as as' && l == l'
  | reference n i l, reference n' i' l' => n == n' && sameOption i i' && l == l'
  | binary o a b l, binary o' a' b' l' => o == o' && same a a' && same b b' && l == l'
  | unary o a l, unary o' a' l' => o == o' && same a a' && l == l'
  | literal v l, literal v' l' => v == v' && l == l'
  | _, _ => false

def sameAll : List Node → List Node → Bool
  | [], [] => true
  | n :: ns, n' :: ns' => same n n' && sameAll ns ns'
  | _, _ => false

def sameOption : Option Node → Option Node → Bool
  | none, none => true
  | some n, some n' => same n n'
  | _, _ => false

end

mutual

private theorem same_iff : ∀ a b : Node, same a b = true ↔ a = b
  | mainClass _ m _, b => by cases b <;> simp [same, same_iff m, and_assoc]
  | classDeclaration _ _ vs ms _, b => by
    cases b <;> simp [same, sameAll_iff vs, sameAll_iff ms, and_assoc]
  | methodDeclaration _ _ _ ps n _, b => by
    cases b <;> simp [same, sameAll_iff ps, same_iff n, and_assoc]
  | methodBody vs ss r _, b => by
    cases b <;> simp [same, sameAll_iff vs, sameAll_iff ss, sameOption_iff r, and_assoc]
  | variableDeclaration .., b => by cases b <;> simp [same, and_assoc]
  | block ss _, b => by cases b <;> simp [same, sameAll_iff ss]
  | ifStatement c t e _, b => by
    cases b <;> simp [same, same_iff c, same_iff t, sameOption_iff e, and_assoc]
  | whileStatement c n _, b => by cases b <;> simp [same, same_iff c, same_iff n, and_assoc]
  | forStatement f c u n _, b => by
    cases b <;>
      simp [same, sameOption_iff f, sameOption_iff c, sameOption_iff u, same_iff n, and_assoc]
  | returnStatement v _, b => by cases b <;> simp [same, same_iff v]
  | printStatement v _, b => by cases b <;> simp [same, same_iff v]
  | newObject _ c _, b => by cases b <;> simp [same, same_iff c, and_assoc]
  | newArray _ n _, b => by cases b <;> simp [same, same_iff n, and_assoc]
  | methodCall _ as _, b => by cases b <;> simp [same, sameAll_iff as, and_assoc]
  | reference _ i _, b => by cases b <;> simp [same, sameOption_iff i, and_assoc]
  | binary _ x y _, b => by cases b <;> simp [same, same_iff x, same_iff y, and_assoc]
  | unary _ x _, b => by cases b <;> simp [same, same_iff x]
  | literal .., b => by cases b <;> simp [same]

private theorem sameAll_iff : ∀ as bs : List Node, sameAll as bs = true ↔ as = bs
  | [], bs => by cases bs <;> simp [sameAll]
  | a :: as, bs => by cases bs <;> simp [sameAll, same_iff a, sameAll_iff as]

private theorem sameOption_iff : ∀ a b : Option Node, sameOption a b = true ↔ a = b
  | none, b => by cases b <;> simp [sameOption]
  | some a, b => by cases b <;> simp [sameOption, same_iff a]

end

instance : DecidableEq Node := fun a b => decidable_of_iff _ (same_iff a b)

end Node

deriving instance DecidableEq for Program

end MiniJava
