import MiniJava.Lexical.Segment
/-!
# Quoted literals

A character or a string stands between two marks of its kind. A backslash keeps
the character after it from closing the literal; both are part of the literal as
they stand. A literal that is never closed takes the rest of the text.
-/

namespace MiniJava.Lexical

inductive Quote where
  | char
  | string
  deriving DecidableEq, Repr

namespace Quote

def mark : Quote → Char
  | char => '\x27'
  | string => '\x22'

def unclosed : Quote → Cause
  | char => .unclosedChar
  | string => .unclosedString

/-- The text before the closing mark, if there is a closing mark. -/
def body? (q : Quote) : List Char → Option (List Char)
  | [] => none
  | c :: rest =>
    if c = q.mark then some []
    else if c = '\\' then
      match rest with
      | [] => none
      | d :: rest => (body? q rest).map fun body => c :: d :: body
    else (body? q rest).map (c :: ·)

/-- What a closed literal holds. A character literal is exactly one character. -/
def content : Quote → List Char → Content
  | string, body =>
    let text := String.ofList body
    .word (.literal .stringLiteral text (.text text))
  | char, [c] => .word (.literal .charLiteral (String.singleton c) (.int c.toNat))
  | char, _ => .malformed (.atStart .charLength) []

def read (q : Quote) (rest : List Char) : Segment :=
  match q.body? rest with
  | some body => ⟨q.mark :: (body ++ [q.mark]), q.content body⟩
  | none => ⟨q.mark :: rest, .malformed (.atStart q.unclosed) []⟩

end Quote

end MiniJava.Lexical
