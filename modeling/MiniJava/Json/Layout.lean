import MiniJava.Text.Blank
/-!
# Layout of nested text

Nested text is laid out with one item a line, indented by one tab for each
bracket that is open. Blanks outside quoted strings carry no meaning and are
dropped, so that the layout depends on the other characters alone; quoted strings
are copied as they stand. The layout is written character by character by a
machine with few states.
-/

namespace MiniJava.Json

open MiniJava.Text

inductive Bracket where
  | curly
  | square
  deriving DecidableEq, Repr

namespace Bracket

def opening : Bracket → Char
  | curly => '\x7b'
  | square => '['

def closing : Bracket → Char
  | curly => '\x7d'
  | square => ']'

def ofOpening? (c : Char) : Option Bracket :=
  if c = '\x7b' then some curly else if c = '[' then some square else none

def isClosing (c : Char) : Bool := c == '\x7d' || c == ']'

end Bracket

namespace Layout

/-- Where the machine is: between items, right after an opening bracket, in a quoted
string, or in one after a backslash. -/
inductive Mode where
  | plain
  | opened (bracket : Bracket)
  | quoted
  | escaped
  deriving DecidableEq, Repr

structure State where
  mode : Mode
  depth : Nat
  deriving DecidableEq, Repr

def newline (depth : Nat) : List Char := '\n' :: List.replicate depth '\t'

/-- One character between items. -/
def plainStep (depth : Nat) (c : Char) : List Char × State :=
  if c = '\x22' then ([c], ⟨.quoted, depth⟩)
  else if let some b := Bracket.ofOpening? c then ([c], ⟨.opened b, depth⟩)
  else if Bracket.isClosing c then (newline (depth - 1) ++ [c], ⟨.plain, depth - 1⟩)
  else if c = ',' then (c :: newline depth, ⟨.plain, depth⟩)
  else if c = ':' then ([c, ' '], ⟨.plain, depth⟩)
  else if isBlank c then ([], ⟨.plain, depth⟩)
  else ([c], ⟨.plain, depth⟩)

/-- One character of the text: what is written for it, and the state after it. An empty
pair of brackets stays on its line; any other opening bracket ends one. -/
def step (s : State) (c : Char) : List Char × State :=
  match s.mode with
  | .plain => plainStep s.depth c
  | .opened b =>
    if isBlank c then ([], s)
    else if c = b.closing then ([c], ⟨.plain, s.depth⟩)
    else
      let (out, next) := plainStep (s.depth + 1) c
      (newline (s.depth + 1) ++ out, next)
  | .quoted =>
    if c = '\\' then ([c], ⟨.escaped, s.depth⟩)
    else if c = '\x22' then ([c], ⟨.plain, s.depth⟩)
    else ([c], s)
  | .escaped => ([c], ⟨.quoted, s.depth⟩)

/-- What is written at the end of the text. -/
def finish (s : State) : List Char :=
  match s.mode with
  | .opened _ => newline (s.depth + 1)
  | _ => []

def run (s : State) : List Char → List Char
  | [] => finish s
  | c :: rest =>
    let (out, next) := step s c
    out ++ run next rest

def start : State := ⟨.plain, 0⟩

end Layout

/-- The indented form of a nested text. -/
def layout (text : List Char) : List Char := Layout.run Layout.start text

end MiniJava.Json
