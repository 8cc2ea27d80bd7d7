/-!
# Places in a source text

A point is a line and a column, both counted from one; a column counts
characters. Reading a text moves a point over it, and moving over two texts in
turn is moving over their concatenation.
-/

namespace MiniJava

structure Point where
  line : Nat
  column : Nat
  deriving DecidableEq, Repr

namespace Point

/-- Where a text begins. -/
def origin : Point := ⟨1, 1⟩

/-- The point after one character: a newline begins the next line. -/
def step (p : Point) (c : Char) : Point :=
  if c = '\n' then ⟨p.line + 1, 1⟩ else ⟨p.line, p.column + 1⟩

def after (p : Point) (text : List Char) : Point :=
  text.foldl step p

@[simp] theorem after_nil (p : Point) : p.after [] = p := rfl

@[simp] theorem after_cons (p : Point) (c : Char) (text : List Char) :
    p.after (c :: text) = (p.step c).after text := rfl

theorem after_append (p : Point) (s t : List Char) :
    p.after (s ++ t) = (p.after s).after t :=
  List.foldl_append

end Point

structure Location extends Point where
  source : String
  deriving DecidableEq, Repr

namespace Location

/-- The written form, `source:line:column`. -/
def text (l : Location) : String :=
  l.source ++ ":" ++ toString l.line ++ ":" ++ toString l.column

end Location

end MiniJava
