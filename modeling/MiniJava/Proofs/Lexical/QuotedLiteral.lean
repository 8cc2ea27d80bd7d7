import MiniJava.Proofs.Lexical.Attempt
/-!
# Quoted literals, exactly

A literal is closed by the first mark of its kind that no backslash keeps.  The text up to there is
a sequence of items, each a character or a backslash with the character after it, and there is at
most one way to cut a text so.
-/

namespace MiniJava.Lexical

namespace Quote

/-- What may stand between two marks: characters other than the mark and the backslash, and
backslashes each with the character after it. -/
inductive Items (q : Quote) : List Char → Prop
  | nil : Items q []
  | plain {c : Char} {rest : List Char} (hmark : c ≠ q.mark) (hescape : c ≠ '\\')
      (later : Items q rest) : Items q (c :: rest)
  | escaped {c : Char} {rest : List Char} (later : Items q rest) : Items q ('\\' :: c :: rest)

/-- The text after an opening mark is cut at the closing one. -/
structure Closes (q : Quote) (text body rest : List Char) : Prop where
  items : q.Items body
  split : text = body ++ q.mark :: rest

variable {q : Quote} {text body rest : List Char}

theorem mark_ne_escape (q : Quote) : '\\' ≠ q.mark := by
  cases q <;> decide

theorem items_of_body? (h : q.body? text = some body) : q.Items body := by
  fun_induction body? q text generalizing body with
  | case1 => exact absurd h (by simp)
  | case2 =>
      obtain rfl := Option.some.inj h
      exact .nil
  | case3 => exact absurd h (by simp)
  | case4 _ _ _ ih =>
      obtain ⟨tail, htail, rfl⟩ := Option.map_eq_some_iff.1 h
      exact .escaped (ih htail)
  | case5 _ _ hmark hescape ih =>
      obtain ⟨tail, htail, rfl⟩ := Option.map_eq_some_iff.1 h
      exact .plain hmark hescape (ih htail)

theorem Items.body? (h : q.Items body) (rest : List Char) :
    q.body? (body ++ q.mark :: rest) = some body := by
  induction h with
  | nil =>
      unfold Quote.body?
      exact if_pos rfl
  | plain hmark hescape _ ih =>
      unfold Quote.body?
      simp only [List.cons_append, if_neg hmark, if_neg hescape, ih, Option.map_some]
  | escaped _ ih =>
      unfold Quote.body?
      simp only [List.cons_append, if_neg q.mark_ne_escape, if_true, ih, Option.map_some]

/-- A body is found exactly where the text can be cut. -/
theorem body?_eq_some_iff : q.body? text = some body ↔ ∃ rest, q.Closes text body rest := by
  constructor
  · intro h
    obtain ⟨rest, hsplit⟩ := body?_eq h
    exact ⟨rest, items_of_body? h, hsplit⟩
  · rintro ⟨rest, hitems, rfl⟩
    exact hitems.body? rest

/-- Two backslashes keep each other, and the mark after them closes. -/
example : Quote.string.body? "\\\\\" more\"".toList = some "\\\\".toList := by decide +kernel

/-- A text can be cut in one way at most. -/
theorem Closes.unique {body' rest' : List Char} (h : q.Closes text body rest)
    (h' : q.Closes text body' rest') : body' = body ∧ rest' = rest := by
  have hbody : body' = body := by
    have hfound := body?_eq_some_iff.2 ⟨rest, h⟩
    rw [body?_eq_some_iff.2 ⟨rest', h'⟩] at hfound
    exact Option.some.inj hfound
  subst hbody
  have hrest := List.append_cancel_left (h'.split.symm.trans h.split)
  exact ⟨rfl, (List.cons.inj hrest).2⟩

theorem Items.ne_escape {c : Char} (h : q.Items [c]) : c ≠ '\\' := by
  cases h with
  | plain _ hescape => exact hescape

theorem read_of_closes (h : q.Closes text body rest) :
    q.read text = ⟨q.mark :: (body ++ [q.mark]), q.content body⟩ := by
  rw [read, body?_eq_some_iff.2 ⟨rest, h⟩]

theorem read_of_open (h : ¬ ∃ body rest, q.Closes text body rest) :
    q.read text = ⟨q.mark :: text, .malformed (.atStart q.unclosed) []⟩ := by
  have hnone : q.body? text = none := by
    rw [Option.eq_none_iff_forall_ne_some]
    intro body hbody
    exact h ⟨body, body?_eq_some_iff.1 hbody⟩
  rw [read, hnone]

theorem content_char (h : body.length ≠ 1) :
    char.content body = .malformed (.atStart .charLength) [] := by
  match body, h with
  | [], _ => rfl
  | _ :: _ :: _, _ => rfl

end Quote

theorem Segment.read?_mark (q : Quote) (text : List Char) :
    read? (q.mark :: text) = some (q.read text) := by
  cases q <;> rfl

/-- At an opening mark, a literal that is closed ends there and in no other place: a string carries
its body, a character literal is one character, and anything else between two character marks is
reported once.  A literal that is never closed is reported once and nothing is left of the text. -/
theorem TokenStream.next_before_mark (s : TokenStream) (q : Quote) (p : Point) (text : List Char) :
    let here := s.before p (q.mark :: text)
    let report (cause : Cause) : Diagnostic := ⟨.lexical, ⟨p, s.source⟩, cause.message⟩
    (∀ body rest, q.Closes text body rest →
      let past := p.after (q.mark :: (body ++ [q.mark]))
      let word := String.ofList body
      (∀ body' rest', q.Closes text body' rest' → body' = body ∧ rest' = rest) ∧
      (q = .string → here.next =
        (s.give ⟨[], .literal .stringLiteral word (.text word), ⟨p, s.source⟩⟩).before past rest) ∧
      (∀ c, q = .char → body = [c] → c ≠ '\\' ∧ here.next =
        (s.give ⟨[], .literal .charLiteral word (.int c.toNat), ⟨p, s.source⟩⟩).before past rest) ∧
      (q = .char → body.length ≠ 1 → here.next =
        ((s.note [report .charLength]).before past rest).next.faulty)) ∧
    ((¬ ∃ body rest, q.Closes text body rest) → here.next =
      (s.give ⟨[report q.unclosed],
        .endOfFile ⟨p.after (q.mark :: text), s.source⟩⟩).before (p.after (q.mark :: text)) []) := by
  intro here report
  have hread := Segment.read?_mark q text
  constructor
  · intro body rest h past word
    have hsplit : q.mark :: text = q.mark :: (body ++ [q.mark]) ++ rest := by
      rw [h.split]
      simp
    have hfirst : Segment.read? (q.mark :: (body ++ [q.mark]) ++ rest) =
        some ⟨q.mark :: (body ++ [q.mark]), q.content body⟩ := by
      rw [← hsplit, hread, Quote.read_of_closes h]
    have hhere : here = s.before p (q.mark :: (body ++ [q.mark]) ++ rest) :=
      congrArg (s.before p) hsplit
    refine ⟨fun _ _ => h.unique, ?_, ?_, ?_⟩
    · rintro rfl
      rw [hhere]
      exact s.next_before_word p hfirst
    · rintro c rfl rfl
      rw [hhere]
      exact ⟨h.items.ne_escape, s.next_before_word p hfirst⟩
    · rintro rfl hlength
      rw [Quote.content_char hlength] at hfirst
      have hnext := s.next_before_malformed p hfirst
      rw [List.map_singleton, Fault.diagnose_atStart] at hnext
      rw [hhere]
      exact hnext
  · intro h
    have hfirst : Segment.read? (q.mark :: text ++ []) =
        some ⟨q.mark :: text, .malformed (.atStart q.unclosed) []⟩ := by
      rw [List.append_nil, hread, Quote.read_of_open h]
    have hnext := s.next_before_malformed p hfirst
    rw [List.append_nil, List.map_singleton, Fault.diagnose_atStart, next_before_nil] at hnext
    exact hnext

end MiniJava.Lexical
