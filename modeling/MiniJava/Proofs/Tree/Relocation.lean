import MiniJava.Grammar.Parse
import MiniJava.Proofs.Token.WellFormed
/-!
# Relocation

Moving every place in a value along a function on places.  Two values are alike under a
function if they are equal once moved along it: under the identity that is equality, and
under a constant function it is equality up to places.
-/

namespace MiniJava

namespace Node

mutual

def relocate (φ : Location → Location) : Node → Node
  | mainClass n m l => .mainClass n (relocate φ m) (φ l)
  | classDeclaration n b vs ms l =>
    .classDeclaration n b (relocateAll φ vs) (relocateAll φ ms) (φ l)
  | methodDeclaration a r n ps b l =>
    .methodDeclaration a r n (relocateAll φ ps) (relocate φ b) (φ l)
  | methodBody vs ss r l =>
    .methodBody (relocateAll φ vs) (relocateAll φ ss) (relocateOption φ r) (φ l)
  | variableDeclaration t n l => .variableDeclaration t n (φ l)
  | block ss l => .block (relocateAll φ ss) (φ l)
  | ifStatement c t e l =>
    .ifStatement (relocate φ c) (relocate φ t) (relocateOption φ e) (φ l)
  | whileStatement c b l => .whileStatement (relocate φ c) (relocate φ b) (φ l)
  | forStatement f c u b l =>
    .forStatement (relocateOption φ f) (relocateOption φ c) (relocateOption φ u) (relocate φ b)
      (φ l)
  | returnStatement v l => .returnStatement (relocate φ v) (φ l)
  | printStatement v l => .printStatement (relocate φ v) (φ l)
  | newObject t c l => .newObject t (relocate φ c) (φ l)
  | newArray t n l => .newArray t (relocate φ n) (φ l)
  | methodCall n as l => .methodCall n (relocateAll φ as) (φ l)
  | reference n i l => .reference n (relocateOption φ i) (φ l)
  | binary o a b l => .binary o (relocate φ a) (relocate φ b) (φ l)
  | unary o a l => .unary o (relocate φ a) (φ l)
  | literal v l => .literal v (φ l)

def relocateAll (φ : Location → Location) : List Node → List Node
  | [] => []
  | n :: ns => relocate φ n :: relocateAll φ ns

def relocateOption (φ : Location → Location) : Option Node → Option Node
  | none => none
  | some n => some (relocate φ n)

end

variable (φ : Location → Location)

@[simp] theorem relocateAll_eq_map (ns : List Node) : relocateAll φ ns = ns.map (relocate φ) := by
  induction ns with
  | nil => rfl
  | cons n ns ih => rw [relocateAll, ih, List.map_cons]

@[simp] theorem relocateOption_eq_map (found : Option Node) :
    relocateOption φ found = found.map (relocate φ) := by
  cases found <;> rfl

@[simp] theorem location_relocate (n : Node) : (n.relocate φ).location = φ n.location := by
  cases n <;> rfl

@[simp] theorem kind_relocate (n : Node) : (n.relocate φ).kind = n.kind := by
  cases n <;> rfl

@[simp] theorem isVariableDeclaration_relocate (n : Node) :
    (n.relocate φ).isVariableDeclaration = n.isVariableDeclaration := by
  rw [isVariableDeclaration, kind_relocate, isVariableDeclaration]

mutual

theorem relocate_id : ∀ n : Node, n.relocate id = n
  | mainClass n m l => by rw [relocate, relocate_id m]; rfl
  | classDeclaration n b vs ms l => by
    rw [relocate, relocateAll_id vs, relocateAll_id ms]; rfl
  | methodDeclaration a r n ps b l => by rw [relocate, relocateAll_id ps, relocate_id b]; rfl
  | methodBody vs ss r l => by
    rw [relocate, relocateAll_id vs, relocateAll_id ss, relocateOption_id r]; rfl
  | variableDeclaration .. => rfl
  | block ss l => by rw [relocate, relocateAll_id ss]; rfl
  | ifStatement c t e l => by
    rw [relocate, relocate_id c, relocate_id t, relocateOption_id e]; rfl
  | whileStatement c b l => by rw [relocate, relocate_id c, relocate_id b]; rfl
  | forStatement f c u b l => by
    rw [relocate, relocateOption_id f, relocateOption_id c, relocateOption_id u, relocate_id b]
    rfl
  | returnStatement v l => by rw [relocate, relocate_id v]; rfl
  | printStatement v l => by rw [relocate, relocate_id v]; rfl
  | newObject t c l => by rw [relocate, relocate_id c]; rfl
  | newArray t n l => by rw [relocate, relocate_id n]; rfl
  | methodCall n as l => by rw [relocate, relocateAll_id as]; rfl
  | reference n i l => by rw [relocate, relocateOption_id i]; rfl
  | binary o a b l => by rw [relocate, relocate_id a, relocate_id b]; rfl
  | unary o a l => by rw [relocate, relocate_id a]; rfl
  | literal .. => rfl

private theorem relocateAll_id : ∀ ns : List Node, relocateAll id ns = ns
  | [] => rfl
  | n :: ns => by rw [relocateAll, relocate_id n, relocateAll_id ns]

private theorem relocateOption_id : ∀ found : Option Node, relocateOption id found = found
  | none => rfl
  | some n => by rw [relocateOption, relocate_id n]

end

end Node

class Relocatable (α : Type) where
  move : (Location → Location) → α → α

namespace Relocatable

open Grammar

variable {α β : Type}

instance : Relocatable Node := ⟨Node.relocate⟩
instance : Relocatable Token := ⟨fun φ t => { t with location := φ t.location }⟩
instance : Relocatable SyntaxError := ⟨fun φ e => { e with location := φ e.location }⟩
instance : Relocatable String := ⟨fun _ s => s⟩
instance : Relocatable Bool := ⟨fun _ b => b⟩
instance : Relocatable Int := ⟨fun _ n => n⟩
instance : Relocatable Unit := ⟨fun _ u => u⟩
instance [Relocatable α] : Relocatable (List α) := ⟨fun φ => List.map (move φ)⟩
instance [Relocatable α] : Relocatable (Option α) := ⟨fun φ => Option.map (move φ)⟩
instance [Relocatable α] [Relocatable β] : Relocatable (α × β) :=
  ⟨fun φ p => (move φ p.1, move φ p.2)⟩
instance [Relocatable α] : Relocatable (Except SyntaxError α) where
  move
    | φ, .ok a => .ok (move φ a)
    | φ, .error e => .error (move φ e)
instance : Relocatable Step where
  move
    | φ, .read t => .read (move φ t)
    | φ, .report e => .report (move φ e)
instance : Relocatable Program := ⟨fun φ p => ⟨φ p.location, move φ p.classes⟩⟩

section

variable (φ : Location → Location) [Relocatable α]

@[simp] theorem move_nil : move φ ([] : List α) = [] := rfl

@[simp] theorem move_cons (a : α) (as : List α) : move φ (a :: as) = move φ a :: move φ as := rfl

@[simp] theorem move_append (as bs : List α) : move φ (as ++ bs) = move φ as ++ move φ bs :=
  List.map_append

@[simp] theorem move_take (k : Nat) (as : List α) : move φ (as.take k) = (move φ as).take k :=
  List.map_take

@[simp] theorem move_drop (k : Nat) (as : List α) : move φ (as.drop k) = (move φ as).drop k :=
  List.map_drop

@[simp] theorem length_move (as : List α) : (move φ as).length = as.length :=
  List.length_map (move φ)

@[simp] theorem move_some (a : α) : move φ (some a) = some (move φ a) := rfl

@[simp] theorem move_toList (found : Option α) : move φ found.toList = (move φ found).toList := by
  cases found <;> rfl

@[simp] theorem move_ok (a : α) : move φ (.ok a : Except SyntaxError α) = .ok (move φ a) := rfl

@[simp] theorem move_strings (names : List String) : move φ names = names :=
  List.map_id names

theorem move_token (x : Lexeme) (l : Location) : move φ (⟨x, l⟩ : Token) = ⟨x, φ l⟩ := rfl

theorem move_syntaxError (complaint : Complaint) (l : Location) :
    move φ (⟨l, complaint⟩ : SyntaxError) = ⟨φ l, complaint⟩ := rfl

theorem move_program (l : Location) (classes : List Node) :
    move φ (⟨l, classes⟩ : Program) = ⟨φ l, move φ classes⟩ := rfl

end

/-! ## Moving nothing -/

section

variable [Relocatable α] (h : ∀ a : α, move id a = a)
include h

theorem move_id_list (as : List α) : move id as = as :=
  (List.map_congr_left fun a _ => h a).trans (List.map_id as)

theorem move_id_option (found : Option α) : move id found = found := by
  cases found with
  | none => rfl
  | some a => exact congrArg some (h a)

theorem move_id_result (value : Except SyntaxError α) : move id value = value := by
  cases value with
  | ok a => exact congrArg Except.ok (h a)
  | error e => rfl

end

/-! ## Nodes -/

section

variable (φ : Location → Location) {n m : Node} {ns ms : List Node} {found : Option Node}
  {l : Location}

theorem move_mainClass {name : String} :
    move φ (Node.mainClass name n l) = .mainClass name (move φ n) (φ l) := rfl

theorem move_classDeclaration {name : String} {base : Option String} :
    move φ (Node.classDeclaration name base ns ms l) =
      .classDeclaration name base (move φ ns) (move φ ms) (φ l) := by
  simp [move, Node.relocate]

theorem move_methodDeclaration {attributes : List String} {type name : String} :
    move φ (Node.methodDeclaration attributes type name ns n l) =
      .methodDeclaration attributes type name (move φ ns) (move φ n) (φ l) := by
  simp [move, Node.relocate]

theorem move_methodBody :
    move φ (Node.methodBody ns ms found l) =
      .methodBody (move φ ns) (move φ ms) (move φ found) (φ l) := by
  simp [move, Node.relocate]

theorem move_variableDeclaration {type name : String} :
    move φ (Node.variableDeclaration type name l) = .variableDeclaration type name (φ l) := rfl

theorem move_block : move φ (Node.block ns l) = .block (move φ ns) (φ l) := by
  simp [move, Node.relocate]

theorem move_ifStatement {c : Node} :
    move φ (Node.ifStatement c n found l) =
      .ifStatement (move φ c) (move φ n) (move φ found) (φ l) := by
  simp [move, Node.relocate]

theorem move_whileStatement :
    move φ (Node.whileStatement n m l) = .whileStatement (move φ n) (move φ m) (φ l) := rfl

theorem move_forStatement {first condition update : Option Node} :
    move φ (Node.forStatement first condition update n l) =
      .forStatement (move φ first) (move φ condition) (move φ update) (move φ n) (φ l) := by
  simp [move, Node.relocate]

theorem move_returnStatement :
    move φ (Node.returnStatement n l) = .returnStatement (move φ n) (φ l) := rfl

theorem move_printStatement :
    move φ (Node.printStatement n l) = .printStatement (move φ n) (φ l) := rfl

theorem move_newObject {type : String} :
    move φ (Node.newObject type n l) = .newObject type (move φ n) (φ l) := rfl

theorem move_newArray {type : String} :
    move φ (Node.newArray type n l) = .newArray type (move φ n) (φ l) := rfl

theorem move_methodCall {name : String} :
    move φ (Node.methodCall name ns l) = .methodCall name (move φ ns) (φ l) := by
  simp [move, Node.relocate]

theorem move_reference {name : String} :
    move φ (Node.reference name found l) = .reference name (move φ found) (φ l) := by
  simp [move, Node.relocate]

theorem move_binary {op : BinaryOperator} :
    move φ (Node.binary op n m l) = .binary op (move φ n) (move φ m) (φ l) := rfl

theorem move_unary {op : UnaryOperator} :
    move φ (Node.unary op n l) = .unary op (move φ n) (φ l) := rfl

theorem move_literal {value : Literal} :
    move φ (Node.literal value l) = .literal value (φ l) := rfl

end

end Relocatable

/-- Equal once moved. -/
abbrev Alike {α : Type} [Relocatable α] (φ : Location → Location) (a a' : α) : Prop :=
  Relocatable.move φ a = Relocatable.move φ a'

end MiniJava
