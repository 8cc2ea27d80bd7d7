import MiniJava.Grammar.Basic
/-!
# Recovery

A list of items goes on after an item that failed: the error is reported, and
tokens are skipped up to a place where an item may begin. Each round of such a
list reads at least one token, so a list always ends.
-/

namespace MiniJava.Grammar

variable {α : Type}

def beginsStatement (t : Token) : Bool :=
  t.kind == .dataType ||
    [.classKeyword, .publicKeyword, .ifKeyword, .whileKeyword, .forKeyword, .printKeyword,
      .returnKeyword, .leftBrace].contains t.terminal

/-- How many tokens to skip to where the next statement may begin: those before a closing
brace or a token that begins a statement, and through the first semicolon. -/
def toStatement : List Token → Nat
  | [] => 0
  | t :: rest =>
    if t.terminal = .rightBrace then 0
    else if t.terminal = .semicolon then 1
    else if beginsStatement t then 0
    else toStatement rest + 1

/-- How many tokens to skip to where the next method may begin, when `depth` braces have
been opened on the way: groups of braces are skipped whole. -/
def toMember (depth : Nat) : List Token → Nat
  | [] => 0
  | t :: rest =>
    if depth = 0 ∧ (t.terminal = .publicKeyword ∨ t.terminal = .rightBrace) then 0
    else if t.terminal = .leftBrace then toMember (depth + 1) rest + 1
    else if t.terminal = .rightBrace then toMember (depth - 1) rest + 1
    else toMember depth rest + 1

/-- Resumes a list at the next place that `count` finds. An item that failed on its first
token loses that token. -/
def resume (count : List Token → Nat) (stalled : Bool) : Parse Unit := do
  if stalled then
    let _ ← Parse.advance
  Parse.skip count

/-- An item of a list. A failure is reported, and the list is resumed without the item. -/
def recovering (count : List Token → Nat) (item : Parse (Option α)) : Parse (Option α) := do
  let (result, stalled) ← Parse.attempt item
  match result with
  | .ok found => pure found
  | .error e =>
    Parse.report e
    resume count stalled
    pure none

/-- The items up to a token that stops the list, or to the end. -/
def items (stops : Token → Bool) (count : List Token → Nat) (item : Parse (Option α)) :
    Parse (List α) :=
  Parse.fix (fun self _ => do
    let done ← Parse.atEnd
    let t ← Parse.current
    if done || stops t then pure []
    else
      let found ← recovering count item
      (found.toList ++ ·) <$> self ()) ()

/-- Keeps a node of the kind that is wanted. Any other is reported and dropped. -/
def keep (wanted : NodeKind) (node : Node) : Parse (Option Node) := do
  if node.kind = wanted then pure (some node)
  else
    Parse.report ⟨node.location, .wrongNode wanted node.kind⟩
    pure none

end MiniJava.Grammar
