import MiniJava.Grammar.Error
/-!
# Productions

A production reads tokens from the front of those ahead and yields a value or a
syntax error. Its trace tells in order which tokens it read and which errors it
reported on the way, so what it does never depends on what was done before it.
That the tokens read, followed by the rest, are the tokens it was given is part
of the type.
-/

namespace MiniJava.Grammar

inductive Step where
  | read (token : Token)
  | report (error : SyntaxError)
  deriving DecidableEq, Repr

abbrev Trace := List Step

namespace Trace

def tokens (trace : Trace) : List Token :=
  trace.filterMap fun
    | .read t => some t
    | .report _ => none

def errors (trace : Trace) : List SyntaxError :=
  trace.filterMap fun
    | .read _ => none
    | .report e => some e

/-- The trace of reading some tokens and doing no more. -/
def ofTokens (ts : List Token) : Trace := ts.map .read

@[simp] theorem tokens_nil : tokens [] = [] := rfl

@[simp] theorem tokens_append (s t : Trace) : tokens (s ++ t) = tokens s ++ tokens t :=
  List.filterMap_append

@[simp] theorem tokens_read (t : Token) (trace : Trace) :
    tokens (.read t :: trace) = t :: tokens trace := rfl

@[simp] theorem tokens_report (e : SyntaxError) (trace : Trace) :
    tokens (.report e :: trace) = tokens trace := rfl

@[simp] theorem tokens_ofTokens (ts : List Token) : tokens (ofTokens ts) = ts := by
  induction ts with
  | nil => rfl
  | cons t ts ih => exact congrArg (t :: ·) ih

@[simp] theorem errors_nil : errors [] = [] := rfl

@[simp] theorem errors_append (s t : Trace) : errors (s ++ t) = errors s ++ errors t :=
  List.filterMap_append

@[simp] theorem errors_ofTokens (ts : List Token) : errors (ofTokens ts) = [] := by
  induction ts with
  | nil => rfl
  | cons t ts ih => exact ih

end Trace

structure Outcome (α : Type) where
  value : Except SyntaxError α
  trace : Trace
  rest : List Token

namespace Outcome

variable {α β : Type}

/-- Goes on with a value and what was left; an error ends it. -/
def andThen : Outcome α → (α → List Token → Outcome β) → Outcome β
  | ⟨.error e, trace, rest⟩, _ => ⟨.error e, trace, rest⟩
  | ⟨.ok a, trace, rest⟩, next =>
    let o := next a rest
    ⟨o.value, trace ++ o.trace, o.rest⟩

theorem andThen_conserves {o : Outcome α} {next : α → List Token → Outcome β}
    (h : ∀ a rest, (next a rest).trace.tokens ++ (next a rest).rest = rest) :
    (o.andThen next).trace.tokens ++ (o.andThen next).rest = o.trace.tokens ++ o.rest := by
  obtain ⟨value, trace, rest⟩ := o
  cases value with
  | error e => rfl
  | ok a => simp [andThen, h a rest]

end Outcome

/-- A production. It is given the place where the source ends and the tokens ahead. -/
structure Parse (α : Type) where
  run : Location → List Token → Outcome α
  conserves : ∀ finish ahead,
    (run finish ahead).trace.tokens ++ (run finish ahead).rest = ahead

namespace Parse

variable {α β : Type}

protected def pure (a : α) : Parse α where
  run _ ahead := ⟨.ok a, [], ahead⟩
  conserves _ _ := rfl

def fail (e : SyntaxError) : Parse α where
  run _ ahead := ⟨.error e, [], ahead⟩
  conserves _ _ := rfl

/-- One production after another; the second is not tried if the first fails. -/
protected def bind (p : Parse α) (f : α → Parse β) : Parse β where
  run finish ahead := (p.run finish ahead).andThen fun a rest => (f a).run finish rest
  conserves finish ahead :=
    (Outcome.andThen_conserves fun a => (f a).conserves finish).trans (p.conserves finish ahead)

protected def map (f : α → β) (p : Parse α) : Parse β where
  run finish ahead :=
    let o := p.run finish ahead
    ⟨o.value.map f, o.trace, o.rest⟩
  conserves := p.conserves

instance : Monad Parse where
  pure := Parse.pure
  bind := Parse.bind
  map := Parse.map

/-- The token at the front, or the one that stands for the end of the source. -/
def frontOf (finish : Location) (ahead : List Token) : Token :=
  ahead.headD (.endOfFile finish)

def current : Parse Token where
  run finish ahead := ⟨.ok (frontOf finish ahead), [], ahead⟩
  conserves _ _ := rfl

def atEnd : Parse Bool where
  run _ ahead := ⟨.ok ahead.isEmpty, [], ahead⟩
  conserves _ _ := rfl

/-- Reads the token at the front. The end of the source is never passed. -/
def advance : Parse Token where
  run finish ahead :=
    match ahead with
    | [] => ⟨.ok (.endOfFile finish), [], []⟩
    | t :: rest => ⟨.ok t, [.read t], rest⟩
  conserves _ ahead := by cases ahead <;> rfl

/-- Reads as many tokens as `count` says when it sees those ahead. -/
def skip (count : List Token → Nat) : Parse Unit where
  run _ ahead := ⟨.ok (), .ofTokens (ahead.take (count ahead)), ahead.drop (count ahead)⟩
  conserves _ ahead := by simp

def report (e : SyntaxError) : Parse Unit where
  run _ ahead := ⟨.ok (), [.report e], ahead⟩
  conserves _ _ := rfl

/-- Tries a production. The result tells its value or its error, and whether it read
nothing. -/
def attempt (p : Parse α) : Parse (Except SyntaxError α × Bool) where
  run finish ahead :=
    let o := p.run finish ahead
    ⟨.ok (o.value, o.trace.tokens.isEmpty), o.trace, o.rest⟩
  conserves := p.conserves

/-- What a recursive production does when it is entered again with no token read since.
No production of the grammar does that. -/
def exhausted : Parse α where
  run finish ahead :=
    let t := frontOf finish ahead
    ⟨.error ⟨t.location, .unexpectedEnd t.toLexeme⟩, [], ahead⟩
  conserves _ _ := rfl

/-- A production that is given up if there are not fewer tokens ahead than a bound. -/
def below (bound : Nat) (p : Parse α) : Parse α where
  run finish ahead :=
    if ahead.length < bound then p.run finish ahead else exhausted.run finish ahead
  conserves finish ahead := by
    split
    · exact p.conserves finish ahead
    · rfl

/-- A recursive production unfolded a number of times. It may be entered again only with
fewer tokens ahead. -/
def fixWithin (body : (β → Parse α) → β → Parse α) : Nat → β → Parse α
  | 0, _ => exhausted
  | fuel + 1, b =>
    { run := fun finish ahead =>
        (body (fun b' => below ahead.length (fixWithin body fuel b')) b).run finish ahead
      conserves := fun finish ahead => (body _ b).conserves finish ahead }

/-- The production that `body` defines in terms of itself. The tokens ahead bound how
often it can be entered again, since a token is read each time. -/
def fix (body : (β → Parse α) → β → Parse α) (b : β) : Parse α where
  run finish ahead := (fixWithin body (ahead.length + 1) b).run finish ahead
  conserves finish ahead := (fixWithin body (ahead.length + 1) b).conserves finish ahead

end Parse

end MiniJava.Grammar
