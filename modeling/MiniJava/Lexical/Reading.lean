import MiniJava.Lexical.Segmentation
/-!
# Readings

A reading is what one request for a token yields: the token, and the diagnostics
for the malformed text passed over on the way to it. A source yields one reading
for each of its words and, when they are used up, an ending whose token stands
for the end of the source.
-/

namespace MiniJava.Lexical

structure Reading where
  diagnostics : List Diagnostic
  token : Token
  deriving DecidableEq, Repr

/-- Everything that requests for tokens can yield, in order. -/
structure Readings where
  words : List Reading
  ending : Reading
  deriving DecidableEq, Repr

namespace Readings

def precededBy (found : List Diagnostic) (rs : Readings) : Readings :=
  match rs.words with
  | [] => { rs with ending := { rs.ending with diagnostics := found ++ rs.ending.diagnostics } }
  | r :: rest => { rs with words := { r with diagnostics := found ++ r.diagnostics } :: rest }

def ofSegments (source : String) (p : Point) : List Segment → Readings
  | [] => ⟨[], ⟨[], .endOfFile ⟨p, source⟩⟩⟩
  | g :: rest =>
    match g.content with
    | .gap => ofSegments source (p.after g.text) rest
    | .word lexeme =>
      let later := ofSegments source (p.after g.text) rest
      { later with words := ⟨[], ⟨lexeme, ⟨p, source⟩⟩⟩ :: later.words }
    | .malformed first others =>
      let found := (first :: others).map (·.diagnose source p g.text)
      (ofSegments source (p.after g.text) rest).precededBy found

def ofText (source : String) (text : List Char) : Readings :=
  ofSegments source .origin (segments text)

def tokens (rs : Readings) : List Token := rs.words.map (·.token)

end Readings

end MiniJava.Lexical
