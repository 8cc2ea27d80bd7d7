import MiniJava.Grammar.Parse
/-!
# Common productions

Asking for a terminal, a kind of token or a name, and lists separated by commas.
-/

namespace MiniJava.Grammar

variable {α : Type}

def check (terminal : Terminal) : Parse Bool := do
  let t ← Parse.current
  pure (t.terminal == terminal)

/-- Reads a terminal if it is at the front, and tells whether it was. -/
def accept (terminal : Terminal) : Parse Bool := do
  if ← check terminal then
    let _ ← Parse.advance
    pure true
  else pure false

def unexpected (what : Expectation) : Parse SyntaxError := do
  let t ← Parse.current
  pure ⟨t.location, .expected what t.toLexeme⟩

def refuse (what : Expectation) : Parse α := do
  let e ← unexpected what
  Parse.fail e

def expect (terminal : Terminal) : Parse Token := do
  if ← check terminal then Parse.advance else refuse (.terminal terminal)

def expectKind (kind : TokenKind) : Parse Token := do
  let t ← Parse.current
  if t.kind = kind then Parse.advance else refuse (.kind kind)

def identifier : Parse String := (·.text) <$> expectKind .identifier

def commaSeparated (item : Parse α) : Parse (List α) :=
  Parse.fix (fun self _ => do
    let first ← item
    if ← accept .comma then (first :: ·) <$> self () else pure [first]) ()

end MiniJava.Grammar
