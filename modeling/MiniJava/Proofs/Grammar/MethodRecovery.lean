import MiniJava.Proofs.Grammar.Nesting
import MiniJava.Proofs.Grammar.SelfContained
/-!
# Recovery between methods

A method that fails before its opening brace is skipped whole, and the class goes on with the
next one.  One that fails after that brace, which takes a `return` before its end, leaves its
closing brace, and that ends the class.
-/

namespace MiniJava

/-- A method as it is written: a `public`, what is before the body, and the body, of which all
that is known is where the braces are and that there is no other `public`. -/
structure MethodText where
  start : Token
  header : List Token
  opening : Token
  body : List Token
  closing : Token
  isPublic : start.terminal = .publicKeyword := by decide +kernel
  flat : Flat header := by decide +kernel
  isOpening : opening.terminal = .leftBrace := by decide +kernel
  balanced : Balanced body := by decide +kernel
  isClosing : closing.terminal = .rightBrace := by decide +kernel
  noPublic : ∀ t ∈ header ++ body, t.terminal ≠ .publicKeyword := by decide +kernel

def MethodText.tokens (m : MethodText) : List Token :=
  m.start :: (m.header ++ m.opening :: (m.body ++ [m.closing]))

namespace Grammar

open Parse

variable {α β : Type}

/-! ## Skipping methods -/

theorem toMember_stop {t : Token} (h : t.terminal = .publicKeyword ∨ t.terminal = .rightBrace)
    (rest : List Token) : toMember 0 (t :: rest) = 0 := by
  rw [toMember, if_pos ⟨rfl, h⟩]

/-- Groups of braces are skipped whole, up to where a method may begin. -/
theorem toMember_append {depth : Nat} {ts later : List Token} (h : Closes depth ts)
    (hpublic : ∀ t ∈ ts, t.terminal ≠ .publicKeyword) (hlater : toMember 0 later = 0) :
    toMember depth (ts ++ later) = ts.length := by
  induction ts generalizing depth with
  | nil =>
      obtain rfl : depth = 0 := Int.ofNat_eq_zero.1 h
      exact hlater
  | cons t ts ih =>
      obtain ⟨hfirst, htail⟩ := h
      obtain ⟨ht, hts⟩ := List.forall_mem_cons.1 hpublic
      rw [List.cons_append, List.length_cons]
      rcases toMember_cons depth t (ts ++ later) with ⟨rfl, hstop, -⟩ | ⟨d, hd, hgo⟩
      · rw [Token.brace_of_rightBrace (hstop.resolve_left ht)] at hfirst
        exact absurd hfirst (by decide)
      · rw [hgo, ih (hd ▸ htail) hts]

/-! ## Runs inside a body -/

/-- Where a run that began inside a pair of braces ends: before the closing one, with whole
groups of braces left, or right after it, if it yields a value. -/
inductive EndsBody (closing : Token) (later : List Token) : Outcome α → Prop
  | short {e trace left} (hleft : Closes 0 left) :
      EndsBody closing later ⟨.error e, trace, left ++ closing :: later⟩
  | whole {a trace} : EndsBody closing later ⟨.ok a, trace, later⟩

def ThroughBody (p : Parse α) : Prop :=
  ∀ ⦃finish inner closing later⦄, Enclosed inner closing later →
    EndsBody closing later (p.run finish (inner ++ closing :: later))

theorem throughBody_bind {p : Parse α} {f : α → Parse β} (hp : ∀ n, NestsWithin n p)
    (hf : ∀ a, ThroughBody (f a)) : ThroughBody (p >>= f) := by
  intro finish inner closing later h
  obtain ⟨left, hrest, hleft⟩ := @hp _ finish _ _ _ (Nat.lt_succ_self _) h
  obtain ⟨hnext, -⟩ := h.afterRun hrest hleft
  rcases run_bind_cases p f finish (inner ++ closing :: later) with
    ⟨e, trace, rest, hrun, hbind⟩ | ⟨a, trace, rest, hrun, hbind⟩
  · rw [hrun] at hrest
    subst hrest
    rw [hbind]
    exact .short hleft
  · rw [hrun] at hrest
    subst hrest
    rw [hbind]
    have hend := @hf a finish _ _ _ hnext
    generalize (f a).run finish (left ++ closing :: later) = o at hend
    cases hend with
    | short h => exact .short h
    | whole => exact .whole

theorem throughBody_closing {g : Token → β} :
    ThroughBody (expect .rightBrace >>= fun t => pure (g t)) := by
  intro finish inner closing later h
  cases inner with
  | nil =>
      rw [List.nil_append, expect_bind_run (by decide) h.isClosing]
      exact .whole
  | cons t inner =>
      rw [expect_bind_run_of_ne (show (frontOf finish (t :: inner ++ _)).terminal ≠ _ from
        h.closes.terminal_ne)]
      exact .short h.closes

/-! ## Runs of a method -/

structure Bodied (header : List Token) (opening : Token) (body : List Token) (closing : Token)
    (later : List Token) : Prop where
  flat : Flat header
  isOpening : opening.terminal = .leftBrace
  enclosed : Enclosed body closing later
  wellFormed : ∀ t ∈ header ++ opening :: (body ++ closing :: later), t.WellFormed

/-- Where a run that began in a header ends: before the opening brace, inside the body, or
right after it, if it yields a value. -/
inductive EndsMethod (opening : Token) (body : List Token) (closing : Token)
    (later : List Token) : Outcome α → Prop
  | outside {e trace left} (hleft : Flat left) :
      EndsMethod opening body closing later
        ⟨.error e, trace, left ++ opening :: (body ++ closing :: later)⟩
  | inside {e trace left} (hopened : opening ∈ trace.tokens) (hleft : Closes 0 left) :
      EndsMethod opening body closing later ⟨.error e, trace, left ++ closing :: later⟩
  | whole {a trace} : EndsMethod opening body closing later ⟨.ok a, trace, later⟩

def ThroughMethod (p : Parse α) : Prop :=
  ∀ ⦃finish header opening body closing later⦄, Bodied header opening body closing later →
    EndsMethod opening body closing later
      (p.run finish (header ++ opening :: (body ++ closing :: later)))

section

variable {opening closing : Token} {body later : List Token} {p : Parse α} {f : α → Parse β}

theorem EndsMethod.prepend {o : Outcome α} (h : EndsMethod opening body closing later o)
    (trace : Trace) :
    EndsMethod opening body closing later ⟨o.value, trace ++ o.trace, o.rest⟩ := by
  cases h with
  | outside hleft => exact .outside hleft
  | inside hopened hleft =>
      refine .inside ?_ hleft
      rw [Trace.tokens_append]
      exact List.mem_append_right _ hopened
  | whole => exact .whole

theorem EndsBody.opened {o : Outcome α} (h : EndsBody closing later o) :
    EndsMethod opening body closing later ⟨o.value, .read opening :: o.trace, o.rest⟩ := by
  cases h with
  | short hleft => exact .inside (List.mem_cons_self ..) hleft
  | whole => exact .whole

theorem throughMethod_bind (hp : Consumes p Flat) (hf : ∀ a, ThroughMethod (f a)) :
    ThroughMethod (p >>= f) := by
  intro finish header opening body closing later h
  have hbrace : opening.brace ≠ 0 := by
    rw [Token.brace_of_leftBrace h.isOpening]
    decide
  obtain ⟨left, hheader, hrest⟩ :=
    (@hp _ finish _ h.wellFormed rfl).split hbrace (p.conserves finish _)
  have hnext : Bodied left opening body closing later := by
    refine ⟨fun t ht => h.flat t ?_, h.isOpening, h.enclosed, fun t ht => h.wellFormed t ?_⟩
    · exact hheader ▸ List.mem_append_right _ ht
    · exact mem_ahead_of_mem_rest p finish (hrest ▸ ht)
  rcases run_bind_cases p f finish (header ++ opening :: (body ++ closing :: later)) with
    ⟨e, trace, rest, hrun, hbind⟩ | ⟨a, trace, rest, hrun, hbind⟩
  · rw [hrun] at hrest
    subst hrest
    rw [hbind]
    exact .outside hnext.flat
  · rw [hrun] at hrest
    subst hrest
    rw [hbind]
    exact (hf a hnext).prepend trace

theorem throughMethod_then {g : α → β} (hp : ThroughMethod p) :
    ThroughMethod (p >>= fun a => pure (g a)) := by
  intro finish header opening body closing later h
  have hend := @hp finish _ _ _ _ _ h
  rw [← map_eq_bind]
  show EndsMethod opening body closing later
    (⟨(p.run finish _).value.map g, (p.run finish _).trace, (p.run finish _).rest⟩ : Outcome β)
  generalize p.run finish (header ++ opening :: (body ++ closing :: later)) = o at hend
  cases hend with
  | outside hleft => exact .outside hleft
  | inside hopened hleft => exact .inside hopened hleft
  | whole => exact .whole

end

theorem throughMethod_body : ThroughMethod (methodBody true) := by
  intro finish header opening body closing later h
  cases header with
  | nil =>
      have hitems : ∀ n, NestsWithin n
          (items (endsBody true) toStatement (some <$> statement)) := by
        refine fun n => nests_items (fun t ht hright => ?_) (nests_statement n)
        rw [endsBody, hright] at ht
        exact absurd ht (by simp)
      have hreturn : ∀ n, NestsWithin n bodyReturn :=
        fun n => nests_flat (consumes_bodyReturn tolerant_flat)
      have hthrough := throughBody_bind hitems fun found =>
        throughBody_bind hreturn fun returned => throughBody_closing (g := fun _ =>
          Node.methodBody (found.takeWhile Node.isVariableDeclaration)
            (found.dropWhile Node.isVariableDeclaration) returned opening.location)
      have hend := @hthrough finish _ _ _ h.enclosed
      rw [List.nil_append, methodBody, expect_bind_run (by decide) h.isOpening]
      exact hend.opened
  | cons t header =>
      have ht : t.terminal ≠ .leftBrace := by
        intro hopen
        have hbrace := h.flat t (List.mem_cons_self ..)
        rw [Token.brace_of_leftBrace hopen] at hbrace
        exact absurd hbrace (by decide)
      rw [methodBody, expect_bind_run_of_ne (show (frontOf finish (t :: header ++ _)).terminal ≠ _
        from ht)]
      exact .outside h.flat

theorem method_run_public {finish : Location} {start : Token}
    (hstart : start.terminal = .publicKeyword) (ahead : List Token) :
    ∃ p : Parse Node, ThroughMethod p ∧ method.run finish (start :: ahead) =
      ⟨(p.run finish ahead).value, .read start :: (p.run finish ahead).trace,
        (p.run finish ahead).rest⟩ := by
  refine ⟨_, ?_, expect_bind_run (by decide) hstart ahead⟩
  have hattributes : Consumes attributes Flat :=
    consumes_attributes tolerant_flat.toAdditive fun hwf ht =>
      List.forall_mem_singleton.2 (hwf.brace_of_keyword ht)
  refine throughMethod_bind hattributes fun _ => ?_
  refine throughMethod_bind (consumes_returnType tolerant_flat) fun _ => ?_
  refine throughMethod_bind (consumes_methodName tolerant_flat) fun _ => ?_
  refine throughMethod_bind (consumes_parameters tolerant_flat) fun _ => ?_
  exact throughMethod_then throughMethod_body

end Grammar

/-! ## Methods by themselves -/

namespace MethodText

open Grammar Grammar.Parse

variable {fin finish : Location} {m : MethodText} {later : List Token}

/-- The method that the text is by itself, if it is read to its end without a complaint. -/
def accepted (fin : Location) (m : MethodText) : Option Node :=
  let o := method.run fin m.tokens
  if o.rest = [] ∧ o.trace.errors = [] then o.value.toOption else none

def failsInside (fin : Location) (m : MethodText) : Bool :=
  let o := method.run fin m.tokens
  !o.value.isOk && o.trace.tokens.any (·.terminal == .leftBrace)

inductive Ends (m : MethodText) (later : List Token) : Outcome Node → Prop
  | outside {e trace read left} (hread : trace.tokens = m.start :: read)
      (hsplit : m.header = read ++ left) :
      Ends m later ⟨.error e, trace, left ++ m.opening :: (m.body ++ m.closing :: later)⟩
  | inside {e trace read left} (hread : trace.tokens = m.start :: read)
      (hsplit : m.header ++ m.opening :: m.body = read ++ left)
      (hopened : m.opening ∈ trace.tokens) (hleft : Closes 0 left) :
      Ends m later ⟨.error e, trace, left ++ m.closing :: later⟩
  | whole {a trace} (hread : trace.tokens = m.tokens) : Ends m later ⟨.ok a, trace, later⟩

theorem ends (m : MethodText) (finish : Location)
    (hwf : ∀ t ∈ m.tokens ++ later, t.WellFormed) :
    m.Ends later (method.run finish (m.tokens ++ later)) := by
  have hahead := method.conserves finish (m.tokens ++ later)
  have htokens : m.tokens ++ later =
      m.start :: (m.header ++ m.opening :: (m.body ++ m.closing :: later)) := by
    simp [tokens]
  rw [htokens] at hahead hwf ⊢
  have hwf := (List.forall_mem_cons.1 hwf).2
  have henclosed : Enclosed m.body m.closing later := by
    refine ⟨m.balanced.closes, m.isClosing, fun t ht => hwf t ?_⟩
    exact List.mem_append_right _ (List.mem_cons_of_mem _ ht)
  obtain ⟨p, hp, hrun⟩ := @method_run_public finish _ m.isPublic
    (m.header ++ m.opening :: (m.body ++ m.closing :: later))
  have hend := @hp finish _ _ _ _ _ ⟨m.flat, m.isOpening, henclosed, hwf⟩
  rw [hrun] at hahead ⊢
  generalize p.run finish _ = o at hahead hend
  rw [Trace.tokens_read, List.cons_append, List.cons.injEq] at hahead
  cases hend with
  | @outside e trace left hleft =>
      refine .outside rfl ?_
      have hsplit := hahead.2
      rw [← List.append_assoc] at hsplit
      exact (List.append_cancel_right hsplit).symm
  | @inside e trace left hopened hleft =>
      refine .inside rfl ?_ (List.mem_cons_of_mem _ hopened) hleft
      have hsplit : (trace.tokens ++ left) ++ m.closing :: later =
          (m.header ++ m.opening :: m.body) ++ m.closing :: later := by
        simpa using hahead.2
      exact (List.append_cancel_right hsplit).symm
  | @whole a trace =>
      refine .whole ?_
      have hsplit : trace.tokens ++ later =
          (m.header ++ m.opening :: (m.body ++ [m.closing])) ++ later := by
        simpa using hahead.2
      rw [Trace.tokens_read, List.append_cancel_right hsplit, tokens]

theorem Ends.length_lt {o : Outcome Node} (h : m.Ends later o) (hfails : o.value.isOk = false) :
    o.trace.tokens.length < m.tokens.length := by
  cases h with
  | outside hread hsplit =>
      rw [hread, tokens, hsplit]
      simp only [List.length_cons, List.length_append]
      omega
  | inside hread hsplit =>
      have hlength := congrArg List.length hsplit
      rw [hread, tokens]
      simp only [List.length_cons, List.length_append, List.length_nil] at hlength ⊢
      omega
  | whole => exact absurd hfails (by simp [Except.isOk, Except.toBool])

/-- A method fails alike wherever it stands. -/
theorem fails_anywhere (hwf : ∀ t ∈ m.tokens ++ later, t.WellFormed)
    (hfails : (method.run finish (m.tokens ++ later)).value.isOk = false) (finish' : Location)
    (later' : List Token) :
    (method.run finish' (m.tokens ++ later')).value.isOk = false ∧
      (method.run finish' (m.tokens ++ later')).trace.tokens =
        (method.run finish (m.tokens ++ later)).trace.tokens :=
  fails_append (fun _ => simulates_method) hfails ((m.ends finish hwf).length_lt hfails) finish'
    later'

theorem failsInside_eq (hwf : ∀ t ∈ m.tokens ++ later, t.WellFormed) (fin finish : Location) :
    m.failsInside fin =
      (!(method.run finish (m.tokens ++ later)).value.isOk &&
        (method.run finish (m.tokens ++ later)).trace.tokens.any (·.terminal == .leftBrace)) := by
  have hown : method.run fin (m.tokens ++ []) = method.run fin m.tokens := by
    rw [List.append_nil]
  have hwf' : ∀ t ∈ m.tokens ++ [], t.WellFormed := by
    rw [List.append_nil]
    exact (List.forall_mem_append.1 hwf).1
  have hthere := @fails_anywhere finish m later hwf
  have hhere := @fails_anywhere fin m [] hwf'
  rw [hown] at hhere
  rw [failsInside]
  -- a failure on either side is one on the other, and then the same tokens were read
  cases hok : (method.run finish (m.tokens ++ later)).value.isOk with
  | false =>
      obtain ⟨hfails, htokens⟩ := hthere hok fin []
      rw [hown] at hfails htokens
      rw [hfails, htokens]
  | true =>
      have hfine : (method.run fin m.tokens).value.isOk = true := by
        by_contra hfails
        rw [Bool.not_eq_true] at hfails
        have hbad := (hhere hfails finish later).1
        rw [hok] at hbad
        exact absurd hbad (by decide)
      rw [hfine]
      rfl

theorem closed_tokens (m : MethodText) : Closed m.tokens := by
  refine ⟨m.start :: (m.header ++ m.opening :: m.body), m.closing, ?_, .inr m.isClosing⟩
  simp [tokens]

/-- A method that is accepted is read alike wherever no `else` follows. -/
theorem reads_of_accepted {node : Node} (h : m.accepted fin = some node)
    (hwf : ∀ t ∈ m.tokens, t.WellFormed) (hlater : (frontOf finish later).terminal ≠ .elseKeyword) :
    method.Reads finish m.tokens later node := by
  simp only [accepted] at h
  split at h
  · next hclean =>
    have hvalue : (method.run fin m.tokens).value = .ok node := by
      cases hvalue : (method.run fin m.tokens).value with
      | error e => simp [hvalue, Except.toOption] at h
      | ok a =>
          rw [hvalue] at h
          exact congrArg Except.ok (Option.some.inj h)
    obtain ⟨ts, hts, hreads⟩ := reads_of_outcome hvalue hclean.1 hclean.2
    rw [List.append_nil] at hts
    subst hts
    exact selfContained_method _ (Nat.lt_succ_self _) hwf m.closed_tokens hreads finish later hlater
  · exact absurd h (by simp)

theorem ne_public (m : MethodText) {ts : List Token}
    (hts : ∀ t ∈ ts, t ∈ m.header ++ m.opening :: (m.body ++ [m.closing])) :
    ∀ t ∈ ts, t.terminal ≠ .publicKeyword := by
  intro t ht
  have hne : ∀ {x : Terminal}, t.terminal = x → x ≠ .publicKeyword → t.terminal ≠ .publicKeyword :=
    fun htx hx => htx ▸ hx
  have hmem := hts t ht
  simp only [List.mem_append, List.mem_cons, List.not_mem_nil, or_false] at hmem
  rcases hmem with hheader | rfl | hbody | rfl
  · exact m.noPublic t (List.mem_append_left _ hheader)
  · exact hne m.isOpening (by decide)
  · exact m.noPublic t (List.mem_append_right _ hbody)
  · exact hne m.isClosing (by decide)

theorem closes_tail (m : MethodText) {left : List Token} (hleft : Flat left) :
    Closes 0 (left ++ m.opening :: (m.body ++ [m.closing])) := by
  have hclosing : Closes 1 [m.closing] := by
    rw [Closes, Token.brace_of_rightBrace m.isClosing]
    exact ⟨by decide, rfl⟩
  have hbody : Closes 1 (m.body ++ [m.closing]) :=
    m.balanced.closes.append (by decide) hclosing
  have hopening : Closes 0 (m.opening :: (m.body ++ [m.closing])) := by
    rw [Closes, Token.brace_of_leftBrace m.isOpening]
    exact ⟨by decide, hbody⟩
  exact (Closes.of_flat hleft).append (Int.le_refl 0) hopening

theorem unopened {trace : Trace} {read left : List Token} (hread : trace.tokens = m.start :: read)
    (hsplit : m.header = read ++ left) :
    trace.tokens.any (·.terminal == .leftBrace) = false := by
  rw [hread, List.any_eq_false]
  intro t ht hopen
  rw [beq_iff_eq] at hopen
  rcases List.mem_cons.1 ht with rfl | ht
  · exact absurd (m.isPublic.symm.trans hopen) (by decide)
  · have hbrace := m.flat t (hsplit ▸ List.mem_append_left _ ht)
    rw [Token.brace_of_leftBrace hopen] at hbrace
    exact absurd hbrace (by decide)

/-- From a header on a method is skipped whole. -/
theorem toMember_outside {read left : List Token} (hsplit : m.header = read ++ left)
    (hlater : toMember 0 later = 0) :
    toMember 0 ((left ++ m.opening :: (m.body ++ [m.closing])) ++ later) =
      (left ++ m.opening :: (m.body ++ [m.closing])).length := by
  have hleft : Flat left := fun t ht => m.flat t (hsplit ▸ List.mem_append_right _ ht)
  refine toMember_append (m.closes_tail hleft) (m.ne_public fun t ht => ?_) hlater
  rw [hsplit, List.append_assoc]
  exact List.mem_append_right _ ht

/-- From inside its body a method is skipped up to its closing brace. -/
theorem toMember_inside {read left : List Token}
    (hsplit : m.header ++ m.opening :: m.body = read ++ left) (hleft : Closes 0 left)
    (later : List Token) : toMember 0 (left ++ m.closing :: later) = left.length := by
  refine toMember_append hleft (m.ne_public fun t ht => ?_) (toMember_stop (.inr m.isClosing) _)
  have hmem : t ∈ m.header ++ m.opening :: m.body := hsplit ▸ List.mem_append_right _ ht
  simp only [List.mem_append, List.mem_cons] at hmem ⊢
  tauto

end MethodText

namespace Grammar

open Parse

/-! ## Methods of a class -/

section

variable {fin finish : Location} {m : MethodText} {later : List Token}

/-- A round of the list of methods over one method: it ends after the method unless the method
fails inside, and before its closing brace in that case. -/
theorem method_round (hwf : ∀ t ∈ m.tokens ++ later, t.WellFormed)
    (hlater : toMember 0 later = 0) (helse : (frontOf finish later).terminal ≠ .elseKeyword)
    (fin : Location) :
    ∃ found trace, (recovering (toMember 0) (some <$> method)).run finish (m.tokens ++ later) =
        ⟨.ok found, trace, if m.failsInside fin then m.closing :: later else later⟩ ∧
      trace.tokens ≠ [] ∧ ∀ node ∈ m.accepted fin, found = some node := by
  have hfails := m.failsInside_eq hwf fin finish
  have haccepted : ∀ {node}, m.accepted fin = some node →
      (method.run finish (m.tokens ++ later)).value = .ok node := by
    intro node hnode
    rw [m.reads_of_accepted hnode (List.forall_mem_append.1 hwf).1 helse]
  have hitem : (some <$> method).run finish (m.tokens ++ later) =
      ⟨(method.run finish (m.tokens ++ later)).value.map some,
        (method.run finish (m.tokens ++ later)).trace,
        (method.run finish (m.tokens ++ later)).rest⟩ := rfl
  have hend := m.ends finish hwf
  generalize method.run finish (m.tokens ++ later) = o at hfails haccepted hitem hend
  cases hend with
  | @whole a trace hread =>
      rw [hfails, recovering_run_ok hitem]
      refine ⟨some a, trace, rfl, ?_, fun node hnode => ?_⟩
      · rw [hread]
        exact List.cons_ne_nil _ _
      · exact congrArg some (Except.ok.inj (haccepted hnode))
  | @outside e trace read left hread hsplit =>
      have hrest : left ++ m.opening :: (m.body ++ m.closing :: later) =
          (left ++ m.opening :: (m.body ++ [m.closing])) ++ later := by simp
      rw [hrest] at hitem
      obtain ⟨trace', hround, htokens⟩ := recovering_skips hitem (hread ▸ List.cons_ne_nil _ _)
        (MethodText.toMember_outside hsplit hlater)
      rw [hfails, MethodText.unopened hread hsplit, Bool.and_false, hround]
      refine ⟨none, trace', rfl, htokens, fun node hnode => ?_⟩
      exact absurd (haccepted hnode) (by simp)
  | @inside e trace read left hread hsplit hopened hleft =>
      have hany : trace.tokens.any (·.terminal == .leftBrace) = true :=
        List.any_eq_true.2 ⟨m.opening, hopened, beq_iff_eq.2 m.isOpening⟩
      obtain ⟨trace', hround, htokens⟩ := recovering_skips hitem (hread ▸ List.cons_ne_nil _ _)
        (MethodText.toMember_inside hsplit hleft later)
      rw [hfails, hany, hround]
      refine ⟨none, trace', rfl, htokens, fun node hnode => ?_⟩
      exact absurd (haccepted hnode) (by simp)

end

/-- What a class leaves: what follows its closing brace, or all that follows the first of its
methods that fails inside, with whose closing brace it ends. -/
def leftByClass (fin : Location) (closing : Token) (rest : List Token) :
    List MethodText → List Token
  | [] => rest
  | m :: methods =>
    if m.failsInside fin then methods.flatMap MethodText.tokens ++ closing :: rest
    else leftByClass fin closing rest methods

section

variable {closing : Token} {rest : List Token}

theorem front_methods (methods : List MethodText) (hclosing : closing.terminal = .rightBrace)
    (rest : List Token) :
    ∃ t ahead, methods.flatMap MethodText.tokens ++ closing :: rest = t :: ahead ∧
      (t.terminal = .publicKeyword ∨ t.terminal = .rightBrace) := by
  cases methods with
  | nil => exact ⟨closing, rest, rfl, .inr hclosing⟩
  | cons m methods =>
      rw [List.flatMap_cons, MethodText.tokens, List.cons_append, List.cons_append]
      exact ⟨m.start, _, rfl, .inl m.isPublic⟩

theorem memberMethods_stop (hclosing : closing.terminal = .rightBrace) (finish : Location)
    (rest : List Token) :
    memberMethods.run finish (closing :: rest) = ⟨.ok [], [], closing :: rest⟩ := by
  have hstop : ((frontOf finish (closing :: rest)).terminal == .rightBrace) = true :=
    beq_iff_eq.2 hclosing
  exact items_run_stop (.inr hstop)

/-- The list of methods comes to the closing brace of the class, or to that of the first method
that fails inside, and the methods accepted before that are among those that it found. -/
theorem memberMethods_run (methods : List MethodText) (hclosing : closing.terminal = .rightBrace)
    (hwf : ∀ t ∈ methods.flatMap MethodText.tokens ++ closing :: rest, t.WellFormed)
    (fin finish : Location) :
    ∃ found trace last,
      memberMethods.run finish (methods.flatMap MethodText.tokens ++ closing :: rest) =
        ⟨.ok found, trace, last :: leftByClass fin closing rest methods⟩ ∧
      last.terminal = .rightBrace ∧
      ((methods.takeWhile fun m => !m.failsInside fin).filterMap
        (·.accepted fin)).Sublist found := by
  induction methods with
  | nil =>
      exact ⟨[], [], closing, memberMethods_stop hclosing finish rest, hclosing, .slnil⟩
  | cons m methods ih =>
      rw [List.flatMap_cons, List.append_assoc] at hwf ⊢
      have hlater := (List.forall_mem_append.1 hwf).2
      obtain ⟨t, ahead, hahead, ht⟩ := front_methods methods hclosing rest
      have hskip : toMember 0 (methods.flatMap MethodText.tokens ++ closing :: rest) = 0 := by
        rw [hahead]
        exact toMember_stop ht ahead
      have helse : (frontOf finish
          (methods.flatMap MethodText.tokens ++ closing :: rest)).terminal ≠ .elseKeyword := by
        rw [hahead, frontOf, List.headD_cons]
        rcases ht with ht | ht <;> rw [ht] <;> decide
      obtain ⟨found, trace, hround, htokens, haccepted⟩ := method_round hwf hskip helse fin
      have hne : m.tokens ++ (methods.flatMap MethodText.tokens ++ closing :: rest) ≠ [] :=
        List.append_ne_nil_of_left_ne_nil (List.cons_ne_nil _ _) _
      have hgo : (m.start.terminal == .rightBrace) = false := by
        rw [m.isPublic]
        rfl
      cases hfails : m.failsInside fin with
      | true =>
          -- the brace that closes the method is taken for that of the class
          rw [hfails, if_pos rfl] at hround
          have hothers := memberMethods_stop m.isClosing finish
            (methods.flatMap MethodText.tokens ++ closing :: rest)
          refine ⟨found.toList ++ [], trace ++ [], m.closing, ?_, m.isClosing, ?_⟩
          · rw [leftByClass, if_pos hfails]
            exact items_run_ok hne hgo hround htokens hothers
          · rw [List.takeWhile_cons_of_neg (by simp [hfails])]
            exact List.nil_sublist _
      | false =>
          rw [hfails, if_neg (by decide)] at hround
          obtain ⟨others, trace', last, hothers, hlast, hsub⟩ := ih hlater
          refine ⟨found.toList ++ others, trace ++ trace', last, ?_, hlast, ?_⟩
          · rw [leftByClass, if_neg (by simp [hfails])]
            exact items_run_ok hne hgo hround htokens hothers
          · rw [List.takeWhile_cons_of_pos (by simp [hfails]), List.filterMap_cons]
            cases hm : m.accepted fin with
            | none => exact hsub.trans (List.sublist_append_right ..)
            | some node =>
                rw [haccepted node hm]
                exact hsub.cons_cons node

/-- A class is read on to the closing brace that ends its list of methods, and keeps every
method that would be accepted by itself, so long as no method before it fails inside. -/
theorem class_keeps_methods {c name opening : Token} (methods : List MethodText)
    (hc : c.terminal = .classKeyword) (hname : name.kind = .identifier)
    (hopening : opening.terminal = .leftBrace) (hclosing : closing.terminal = .rightBrace)
    (hwf : ∀ t ∈ methods.flatMap MethodText.tokens ++ closing :: rest, t.WellFormed)
    (fin finish : Location) :
    ∃ found trace, classDeclaration.run finish (c :: name :: opening ::
        (methods.flatMap MethodText.tokens ++ closing :: rest)) =
        ⟨.ok (.classDeclaration name.text none [] found c.location), trace,
          leftByClass fin closing rest methods⟩ ∧
      ((methods.takeWhile fun m => !m.failsInside fin).filterMap
        (·.accepted fin)).Sublist found := by
  obtain ⟨found, trace, last, hmethods, hlast, hsub⟩ :=
    memberMethods_run methods hclosing hwf fin finish
  obtain ⟨t, ahead, hahead, ht⟩ := front_methods methods hclosing rest
  have hvariables : memberVariables.Yields finish (t :: ahead) (t :: ahead) [] := by
    have hends : endsVariables t = true := by
      rcases ht with ht | ht <;> simp [endsVariables, ht]
    exact ⟨[], items_run_stop (.inr hends)⟩
  have hbase : baseClass.Yields finish (opening :: t :: ahead) (opening :: t :: ahead) none := by
    have hfront : (frontOf finish (opening :: t :: ahead)).terminal ≠ .extendsKeyword := by
      rw [frontOf, List.headD_cons, hopening]
      decide
    refine yields_bind ⟨[], accept_run_of_ne (by decide) hfront⟩ ?_
    exact yields_pure
  have hidentifier : identifier.Reads finish [name] (opening :: t :: ahead) name.text :=
    reads_identifier.2 ⟨name, rfl, hname, rfl⟩
  rw [hahead] at hmethods ⊢
  obtain ⟨trace', hrun⟩ : classDeclaration.Yields finish (c :: name :: opening :: t :: ahead)
      (leftByClass fin closing rest methods)
      (.classDeclaration name.text none [] found c.location) := by
    refine yields_expect_bind (by decide) hc (yields_bind hidentifier.yields ?_)
    refine yields_bind hbase (yields_expect_bind (by decide) hopening ?_)
    refine yields_bind hvariables (yields_bind ⟨trace, hmethods⟩ ?_)
    exact yields_expect_bind (by decide) hlast yields_pure
  exact ⟨found, trace', hrun, hsub⟩

end

def line (source : String) (lexemes : List (Nat × Lexeme)) : List Token :=
  lexemes.map fun l => ⟨l.2, ⟨⟨1, l.1⟩, source⟩⟩

def tokenAt (ts : List Token) (i : Nat) : Token := ts.getD i (.endOfFile ⟨.origin, ""⟩)

/-- `class A { public { } public int g() { return 2; } }`, where the first method has no header. -/
def headlessFirst : List Token :=
  line "Headless" [(1, Terminal.classKeyword.lexeme), (7, .name "A"),
    (9, Terminal.leftBrace.lexeme), (11, Terminal.publicKeyword.lexeme),
    (18, Terminal.leftBrace.lexeme), (20, Terminal.rightBrace.lexeme),
    (22, Terminal.publicKeyword.lexeme), (29, Terminal.intType.lexeme), (33, .name "g"),
    (34, Terminal.leftParen.lexeme), (35, Terminal.rightParen.lexeme),
    (37, Terminal.leftBrace.lexeme), (39, Terminal.returnKeyword.lexeme),
    (46, .literal .integer "2" (.int 2)), (47, Terminal.semicolon.lexeme),
    (49, Terminal.rightBrace.lexeme), (51, Terminal.rightBrace.lexeme)]

def headlessFirst.methods : List MethodText :=
  [{ start := tokenAt headlessFirst 3
     header := []
     opening := tokenAt headlessFirst 4
     body := []
     closing := tokenAt headlessFirst 5 },
   { start := tokenAt headlessFirst 6
     header := (headlessFirst.drop 7).take 4
     opening := tokenAt headlessFirst 11
     body := (headlessFirst.drop 12).take 3
     closing := tokenAt headlessFirst 15 }]

theorem class_keeps_methods_headless_first :
    let place (column : Nat) : Location := ⟨⟨1, column⟩, "Headless"⟩
    let kept : Node := .methodDeclaration ["public"] "int" "g" [] (.methodBody [] []
      (some (.returnStatement (.literal (.integer 2) (place 46)) (place 39))) (place 37)) (place 22)
    ∃ found trace, classDeclaration.run (place 52) headlessFirst =
      ⟨.ok (.classDeclaration "A" none [] found (place 1)), trace, []⟩ ∧ [kept].Sublist found := by
  intro place kept
  have htokens : headlessFirst = tokenAt headlessFirst 0 :: tokenAt headlessFirst 1 ::
      tokenAt headlessFirst 2 :: (headlessFirst.methods.flatMap MethodText.tokens ++
        [tokenAt headlessFirst 16]) := by
    decide +kernel
  have hsource : headlessFirst = sourceTokens "Headless"
      "class A \x7b public \x7b \x7d public int g() \x7b return 2; \x7d \x7d" := by
    decide +kernel
  have hmethods : ∀ t ∈ headlessFirst.methods.flatMap MethodText.tokens ++
      [tokenAt headlessFirst 16], t.WellFormed := by
    intro t ht
    have hmem : t ∈ headlessFirst := by
      rw [htokens]
      exact List.mem_cons_of_mem _ (List.mem_cons_of_mem _ (List.mem_cons_of_mem _ ht))
    rw [hsource] at hmem
    exact Lexical.wellFormed_tokens _ _ t hmem
  have hkept : (headlessFirst.methods.takeWhile fun m => !m.failsInside (place 0)).filterMap
      (·.accepted (place 0)) = [kept] := by
    decide +kernel
  have hleft : leftByClass (place 0) (tokenAt headlessFirst 16) [] headlessFirst.methods = [] := by
    decide +kernel
  have hopened : (tokenAt headlessFirst 2).terminal = .leftBrace := rfl
  obtain ⟨found, trace, hrun, hsub⟩ := class_keeps_methods headlessFirst.methods
    (show (tokenAt headlessFirst 0).terminal = .classKeyword from rfl)
    (show (tokenAt headlessFirst 1).kind = .identifier from rfl) hopened
    (show (tokenAt headlessFirst 16).terminal = .rightBrace from rfl) hmethods (place 0) (place 52)
  rw [← htokens, hleft] at hrun
  rw [hkept] at hsub
  exact ⟨found, trace, hrun, hsub⟩

/-- `class A { public int f() { return 1; x = 2; } public int g() { return 2; } }`, where the first
method goes on after its `return`. -/
def overlongFirst : List Token :=
  line "Overlong" [(1, Terminal.classKeyword.lexeme), (7, .name "A"),
    (9, Terminal.leftBrace.lexeme), (11, Terminal.publicKeyword.lexeme),
    (18, Terminal.intType.lexeme), (22, .name "f"), (23, Terminal.leftParen.lexeme),
    (24, Terminal.rightParen.lexeme), (26, Terminal.leftBrace.lexeme),
    (28, Terminal.returnKeyword.lexeme), (35, .literal .integer "1" (.int 1)),
    (36, Terminal.semicolon.lexeme), (38, .name "x"), (40, Terminal.assign.lexeme),
    (42, .literal .integer "2" (.int 2)), (43, Terminal.semicolon.lexeme),
    (45, Terminal.rightBrace.lexeme), (47, Terminal.publicKeyword.lexeme),
    (54, Terminal.intType.lexeme), (58, .name "g"), (59, Terminal.leftParen.lexeme),
    (60, Terminal.rightParen.lexeme), (62, Terminal.leftBrace.lexeme),
    (64, Terminal.returnKeyword.lexeme), (71, .literal .integer "2" (.int 2)),
    (72, Terminal.semicolon.lexeme), (74, Terminal.rightBrace.lexeme),
    (76, Terminal.rightBrace.lexeme)]

def overlongFirst.methods : List MethodText :=
  [{ start := tokenAt overlongFirst 3
     header := (overlongFirst.drop 4).take 4
     opening := tokenAt overlongFirst 8
     body := (overlongFirst.drop 9).take 7
     closing := tokenAt overlongFirst 16 },
   { start := tokenAt overlongFirst 17
     header := (overlongFirst.drop 18).take 4
     opening := tokenAt overlongFirst 22
     body := (overlongFirst.drop 23).take 3
     closing := tokenAt overlongFirst 26 }]

/-- The class ends with the closing brace of its first method: the second one is lost, though
it is accepted by itself. -/
theorem class_loses_method_overlong_first :
    let place (column : Nat) : Location := ⟨⟨1, column⟩, "Overlong"⟩
    overlongFirst = tokenAt overlongFirst 0 :: tokenAt overlongFirst 1 ::
        tokenAt overlongFirst 2 :: (overlongFirst.methods.flatMap MethodText.tokens ++
          [tokenAt overlongFirst 27]) ∧
      (overlongFirst.methods.filterMap (·.accepted (place 0))).length = 1 ∧
      (classDeclaration.run (place 77) overlongFirst).value =
        .ok (.classDeclaration "A" none [] [] (place 1)) := by
  intro place
  refine ⟨?_, ?_, ?_⟩
  · decide +kernel
  · decide +kernel
  · decide +kernel

end Grammar

end MiniJava
