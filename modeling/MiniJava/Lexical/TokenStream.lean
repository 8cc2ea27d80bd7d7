import MiniJava.Lexical.Reading
/-!
# Token streams

A token stream hands out the readings of a source one at a time. It remembers the
token it gave last, how many it gave, and every diagnostic met so far. Past the
last word it gives the token for the end of the source, as often as it is asked.
-/

namespace MiniJava.Lexical

structure TokenStream where
  source : String
  ahead : List Reading
  ending : Reading
  current : Token
  log : Log
  emitted : Nat
  hadFault : Bool
  deriving DecidableEq, Repr

namespace TokenStream

/-- The stream of a source before its first token; the token given last is then an empty
one of unknown kind. -/
def ofText (source text : String) : TokenStream :=
  let readings := Readings.ofText source text.toList
  { source
    ahead := readings.words
    ending := readings.ending
    current := ⟨⟨.unknown, .unreserved, "", .none, -1⟩, ⟨.origin, source⟩⟩
    log := {}
    emitted := 0
    hadFault := false }

def give (s : TokenStream) (r : Reading) : TokenStream :=
  { s with
    current := r.token
    log := s.log.append r.diagnostics
    emitted := s.emitted + 1
    hadFault := !r.diagnostics.isEmpty }

/-- Gives the next token. The diagnostics of the ending are recorded once. -/
def next (s : TokenStream) : TokenStream :=
  match s.ahead with
  | r :: rest => { s.give r with ahead := rest }
  | [] => { s.give s.ending with ending := { s.ending with diagnostics := [] } }

def skip : Nat → TokenStream → TokenStream
  | 0, s => s
  | n + 1, s => skip n s.next

/-- The words not yet given. -/
def remaining (s : TokenStream) : List Token := s.ahead.map (·.token)

/-- Gives every word and then the end of the source. -/
def drain (s : TokenStream) : TokenStream := s.skip (s.ahead.length + 1)

def record (s : TokenStream) (d : Diagnostic) : TokenStream :=
  { s with log := s.log.push d }

def takeDiagnostics (s : TokenStream) : List Diagnostic × TokenStream :=
  let (taken, log) := s.log.take
  (taken, { s with log })

end TokenStream

end MiniJava.Lexical
