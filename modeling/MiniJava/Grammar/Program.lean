import MiniJava.Grammar.Declaration
/-!
# Programs

```text
program ::= main_class (class | ";")*
```

A program always comes of a source: what does not belong is reported and left
out.
-/

namespace MiniJava.Grammar

open Parse (atEnd current)

/-- What may stand after the main class. Semicolons are passed over, and of what else
parses only classes are kept. -/
def topItem : Parse (Option Node) := do
  if ← accept .semicolon then pure none
  else
    let found ← if ← check .classKeyword then classDeclaration else statement
    keep .classDeclaration found

def otherClasses : Parse (List Node) := items (fun _ => false) toStatement topItem

def program : Parse Program := do
  let t ← current
  if ← atEnd then
    Parse.report ⟨t.location, .emptyFile⟩
    pure ⟨t.location, []⟩
  else
    let first ← recovering toStatement (some <$> mainClass)
    let others ← otherClasses
    pure ⟨t.location, first.toList ++ others⟩

end MiniJava.Grammar
