import MiniJava.Proofs.Json.Rows
/-!
# Open brackets

The brackets that are open at the end of a text, counted without regard to the machine that lays
texts out.  Each row of a layout is indented by as many tabs as brackets are open before it, less
the one that it closes itself, and the machine never meets a closing bracket at depth zero.
-/

namespace MiniJava.Json

open MiniJava.Lexical MiniJava.Text

/-! ## The brackets open after a text -/

/-- What one more part of a text makes of the open brackets: one is opened, or the innermost one is
closed, if it is of the same kind.  Strings leave them as they are. -/
def nest (stack : List Bracket) : List Char → Option (List Bracket)
  | [c] =>
    if let some b := Bracket.ofOpening? c then some (b :: stack)
    else if Bracket.isClosing c then
      match stack with
      | b :: outer => if c = b.closing then some outer else none
      | [] => none
    else some stack
  | _ => some stack

/-- The brackets open at the end of a text, innermost first, if none was closed that was not
open. -/
def open? (text : List Char) : Option (List Bracket) := (parts text).foldlM nest []

example : open? "\x7b\"[\": [1".toList = some [.square, .curly] := by decide +kernel

/-- A text leads from some open brackets to others, whatever follows it. -/
def Moves (stack : List Bracket) (text : List Char) (next : List Bracket) : Prop :=
  ∀ after, (parts (text ++ after)).foldlM nest stack = (parts after).foldlM nest next

section

variable {s t u : List Bracket} {c : Char} {text more : List Char}

theorem moves_nil : Moves s [] s := fun _ => rfl

theorem Moves.append (h : Moves s text t) (h' : Moves t more u) : Moves s (text ++ more) u := by
  intro after
  rw [List.append_assoc, h, h']

theorem moves_sign (hquote : c ≠ '\x22') (h : nest s [c] = some t) : Moves s [c] t := by
  intro after
  rw [List.singleton_append, parts_character hquote, List.foldlM_cons, h]
  rfl

theorem moves_opening (b : Bracket) : Moves s [b.opening] (b :: s) := by
  cases b <;> exact moves_sign (by decide) rfl

theorem moves_closing (b : Bracket) : Moves (b :: s) [b.closing] s := by
  cases b <;> exact moves_sign (by decide) rfl

theorem moves_inert (h : ∀ c ∈ text, Inert c) : Moves s text s := by
  induction text with
  | nil => exact moves_nil
  | cons c text ih =>
      obtain ⟨hc, hlater⟩ := List.forall_mem_cons.1 h
      have hsign : nest s [c] = some s := by
        simp [nest, hc.opening, hc.closing]
      exact (moves_sign hc.quote hsign).append (ih hlater)

theorem moves_string (k : String) : Moves s (writeString k []) s := by
  intro after
  have hnest : nest s (writeString k []) = some s := by
    rw [writeString_eq]
    cases k.toList.flatMap escape <;> rfl
  rw [← writeString_append, parts_writeString, List.foldlM_cons, hnest]
  rfl

theorem moves_lead (key : Option String) : Moves s (lead key) s := by
  cases key with
  | none => exact moves_nil
  | some k =>
      rw [lead, writeString_append]
      exact (moves_string k).append (moves_inert inert_colon)

end

namespace Layout

/-! ## Indentation -/

def closings (body : List Char) : Nat := (body.take 1).countP Bracket.isClosing

/-- Rows that lead from some open brackets to others, each indented by those that are open before
it and that it does not begin by closing. -/
inductive Indented : List Bracket → List Row → List Bracket → Prop
  | nil {s : List Bracket} : Indented s [] s
  | cons {s t u : List Bracket} {r : Row} {rows : List Row}
      (hdepth : r.depth + closings r.body = s.length) (hmoves : Moves s r.text t)
      (later : Indented t rows u) : Indented s (r :: rows) u

theorem Indented.append {s t u : List Bracket} {rows more : List Row} (h : Indented s rows t)
    (h' : Indented t more u) : Indented s (rows ++ more) u := by
  induction h with
  | nil => exact h'
  | cons hdepth hmoves _ ih => exact .cons hdepth hmoves (ih h')

theorem Indented.moves {s t : List Bracket} {rows : List Row} (h : Indented s rows t) :
    Moves s (rows.flatMap Row.text) t := by
  induction h with
  | nil => exact moves_nil
  | cons _ hmoves _ ih => exact hmoves.append ih

theorem Indented.split {s u : List Bracket} {rows more : List Row}
    (h : Indented s (rows ++ more) u) : ∃ t, Indented s rows t ∧ Indented t more u := by
  induction rows generalizing s with
  | nil => exact ⟨s, .nil, h⟩
  | cons r rows ih =>
      obtain - | ⟨hdepth, hmoves, hlater⟩ := h
      obtain ⟨t, hrows, hmore⟩ := ih hlater
      exact ⟨t, .cons hdepth hmoves hrows, hmore⟩

variable {d : Nat} {key : Option String} {t trail : List Char} {rows : List Row}

theorem moves_newline {s : List Bracket} (d : Nat) : Moves s (newline d) s :=
  moves_inert (inert_newline d)

theorem Leaf.moves {s : List Bracket} (h : Leaf key t) : Moves s t s := by
  cases h with
  | word _ h => exact moves_inert fun c hc => inert_of_isWordSign (h c hc)
  | string k => exact moves_string k
  | empty => exact (moves_opening .square).append (moves_closing .square)

theorem Leaf.ends (h : Leaf key t) :
    (∃ c rest, t = c :: rest ∧ isBlank c = false ∧ Bracket.isClosing c = false) ∧
      ∃ front c, t = front ++ [c] ∧ isBlank c = false := by
  cases h with
  | word hne h =>
      refine ⟨?_, t.dropLast, t.getLast hne, (List.dropLast_append_getLast hne).symm,
        isBlank_of_isWordSign (h _ (List.getLast_mem hne))⟩
      obtain ⟨c, rest, rfl⟩ := List.exists_cons_of_ne_nil hne
      have hc := h c (List.mem_cons_self ..)
      exact ⟨c, rest, rfl, isBlank_of_isWordSign hc, (inert_of_isWordSign hc).closing⟩
  | string s =>
      refine ⟨⟨'\x22', _, rfl, rfl, rfl⟩, '\x22' :: s.toList.flatMap escape, '\x22', ?_, rfl⟩
      rw [writeString_eq]
      rfl
  | empty => exact ⟨⟨'[', _, rfl, rfl, rfl⟩, ['['], ']', rfl, rfl⟩

theorem head_lead {P : Char → Prop} (hquote : P '\x22') {c : Char} (hc : P c) (key : Option String)
    (rest : List Char) : ∃ d more, lead key ++ c :: rest = d :: more ∧ P d := by
  cases key with
  | none => exact ⟨c, rest, rfl, hc⟩
  | some k => exact ⟨'\x22', _, rfl, hquote⟩

theorem closings_cons {c : Char} (h : Bracket.isClosing c = false) (rest : List Char) :
    closings (c :: rest) = 0 := by
  simp [closings, h]

theorem closings_closing (b : Bracket) (rest : List Char) : closings (b.closing :: rest) = 1 := by
  cases b <;> rfl

theorem closings_lead {c : Char} (h : Bracket.isClosing c = false) (key : Option String)
    (rest : List Char) : closings (lead key ++ c :: rest) = 0 := by
  obtain ⟨e, more, heq, he⟩ :=
    head_lead (P := fun c => Bracket.isClosing c = false) rfl h key rest
  rw [heq, closings_cons he]

theorem isClosing_opening (b : Bracket) : Bracket.isClosing b.opening = false := by
  cases b <;> rfl

theorem Laid.indented (h : Laid d rows) (s : List Bracket) (hs : s.length = d) :
    Indented s rows s := by
  induction h generalizing s with
  | nil => exact .nil
  | @leaf d key t trail rows h htrail _ ih =>
      refine .cons ?_ ((moves_newline d).append
        ((moves_lead key).append (h.moves.append (moves_inert htrail.inert)))) (ih s hs)
      obtain ⟨⟨c, rest, rfl, -, hclosing⟩, -⟩ := h.ends
      rw [List.cons_append, closings_lead hclosing, hs]
      rfl
  | @group d b key trail inner rows hkey hne _ htrail _ ih ihlater =>
      refine .cons ?_ ((moves_newline d).append ((moves_lead key).append (moves_opening b))) ?_
      · rw [closings_lead (isClosing_opening b), hs]
        rfl
      -- the last row closes the bracket, and so stands one level further out than what is open
      refine (ih (b :: s) (by rw [List.length_cons, hs])).append (.cons ?_
        ((moves_newline d).append (((moves_closing b).append (moves_inert htrail.inert)))) (ihlater s hs))
      rw [closings_closing, List.length_cons, hs]

/-! ## What stands on a row -/

structure Row.Tidy (r : Row) : Prop where
  unbroken : '\n' ∉ r.body
  head : ∃ c rest, r.body = c :: rest ∧ isBlank c = false
  last : ∃ front c, r.body = front ++ [c] ∧ isBlank c = false

theorem newline_not_mem_writeString (k : String) : '\n' ∉ writeString k [] := by
  have hdigit : ∀ n < 16, n.digitChar ≠ '\n' := by decide
  have hescape : ∀ c, '\n' ∉ escape c := by
    intro c hc
    unfold escape at hc
    repeat' split at hc
    all_goals first | exact absurd hc (by decide) | skip
    · have hmod : ∀ n, '\n' ≠ (n % 16).digitChar :=
        fun n => (hdigit _ (Nat.mod_lt _ (by decide))).symm
      simp [hex4, hmod] at hc
    · next hnewline _ _ _ => exact hnewline (List.mem_singleton.1 hc).symm
  rw [writeString_eq]
  simp [hescape]

theorem newline_not_mem_lead (key : Option String) : '\n' ∉ lead key := by
  cases key with
  | none => exact List.not_mem_nil
  | some k =>
      rw [lead, writeString_append]
      exact List.not_mem_append (newline_not_mem_writeString k) (by decide)

theorem Trail.newline_not_mem (h : Trail trail) : '\n' ∉ trail := by
  rcases h with rfl | rfl <;> decide

theorem Leaf.newline_not_mem (h : Leaf key t) : '\n' ∉ t := by
  cases h with
  | word _ h => exact fun hc => absurd (h _ hc) (by decide)
  | string k => exact newline_not_mem_writeString k
  | empty => decide

theorem Trail.last (h : Trail trail) {t : List Char} (ht : ∃ front c, t = front ++ [c] ∧
    isBlank c = false) : ∃ front c, t ++ trail = front ++ [c] ∧ isBlank c = false := by
  rcases h with rfl | rfl
  · rwa [List.append_nil]
  · exact ⟨t, ',', rfl, rfl⟩

theorem Laid.tidy (h : Laid d rows) : ∀ r ∈ rows, r.Tidy := by
  induction h with
  | nil => exact List.forall_mem_nil _
  | @leaf d key t trail rows h htrail _ ih =>
      refine List.forall_mem_cons.2 ⟨⟨?_, ?_, ?_⟩, ih⟩
      · exact List.not_mem_append (newline_not_mem_lead key)
          (List.not_mem_append h.newline_not_mem htrail.newline_not_mem)
      · obtain ⟨⟨c, rest, rfl, hblank, -⟩, -⟩ := h.ends
        exact head_lead (P := fun c => isBlank c = false) rfl hblank key _
      · obtain ⟨front, c, hlast, hblank⟩ := htrail.last h.ends.2
        exact ⟨lead key ++ front, c, by rw [hlast, List.append_assoc], hblank⟩
  | @group d b key trail inner rows _ _ _ htrail _ ih ihlater =>
      have hbracket : isBlank b.opening = false ∧ isBlank b.closing = false ∧ b.opening ≠ '\n' ∧
          b.closing ≠ '\n' := by
        cases b <;> decide
      obtain ⟨hopening, hclosing, hopen, hclose⟩ := hbracket
      have hfirst : Row.Tidy ⟨d, lead key ++ [b.opening]⟩ := by
        refine ⟨List.not_mem_append (newline_not_mem_lead key) ?_, ?_, _, _, rfl, hopening⟩
        · exact fun hmem => hopen (List.mem_singleton.1 hmem).symm
        · exact head_lead (P := fun c => isBlank c = false) rfl hopening key []
      have hlast : Row.Tidy ⟨d, b.closing :: trail⟩ := by
        refine ⟨?_, ⟨_, _, rfl, hclosing⟩, ?_⟩
        · exact List.not_mem_cons_of_ne_of_not_mem hclose.symm htrail.newline_not_mem
        · exact htrail.last (t := [b.closing]) ⟨[], b.closing, rfl, hclosing⟩
      refine List.forall_mem_cons.2 ⟨hfirst, List.forall_mem_append.2 ⟨ih, ?_⟩⟩
      exact List.forall_mem_cons.2 ⟨hlast, ihlater⟩

end Layout

end MiniJava.Json
