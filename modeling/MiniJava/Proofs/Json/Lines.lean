import MiniJava.Proofs.Json.Nesting
/-!
# The lines of a layout

What the layout of an object looks like, line by line: how the lines are indented, where lists
stand, and how the machine counts.
-/

namespace MiniJava.Json

open MiniJava.Lexical MiniJava.Text

/-! ## Lists behind their keys -/

def KeyLast (ps : List (List Char)) : Prop :=
  ∃ before k, ps = before ++ [writeString k [], [':'], [' ']]

/-- Parts that begin with a closing square bracket, if nothing but blanks stands before one. -/
def Tight (ps : List (List Char)) : Prop :=
  (ps.dropWhile (·.all isBlank)).head? = some [']'] → ps.head? = some [']']

/-- Every list begins behind its key, and an empty one ends there. -/
def ListsKeyed (ps : List (List Char)) : Prop :=
  ∀ before after, ps = before ++ ['['] :: after → KeyLast before ∧ Tight after

section

variable {ps qs : List (List Char)} {text : List Char} {c : Char}

theorem KeyLast.prepend (h : KeyLast ps) (more : List (List Char)) : KeyLast (more ++ ps) := by
  obtain ⟨before, k, rfl⟩ := h
  exact ⟨more ++ before, k, (List.append_assoc ..).symm⟩

theorem split_behind {α : Type} {xs ys before after : List α} {x : α} (hnone : x ∉ xs)
    (h : xs ++ ys = before ++ x :: after) :
    ∃ more, before = xs ++ more ∧ ys = more ++ x :: after := by
  rcases List.append_eq_append_iff.1 h with ⟨more, hbefore, hys⟩ | ⟨more, rfl, hafter⟩
  · exact ⟨more, hbefore, hys⟩
  · cases more with
    | nil => exact ⟨[], by simp, hafter.symm⟩
    | cons y more =>
        obtain ⟨rfl, -⟩ := List.cons.inj hafter
        exact absurd (List.mem_append_right _ (List.mem_cons_self ..)) hnone

theorem ListsKeyed.prepend (h : ListsKeyed qs) (hnone : ['['] ∉ ps) : ListsKeyed (ps ++ qs) := by
  intro before after hsplit
  obtain ⟨more, rfl, hqs⟩ := split_behind hnone hsplit
  obtain ⟨hkey, htight⟩ := h more after hqs
  exact ⟨hkey.prepend ps, htight⟩

theorem ListsKeyed.list (h : ListsKeyed qs) (k : String) (htight : Tight qs) :
    ListsKeyed ([writeString k [], [':'], [' ']] ++ ['['] :: qs) := by
  intro before after hsplit
  have hkey : writeString k [] ≠ ['['] := by
    rw [writeString_eq]
    exact fun heq => absurd (List.cons.inj heq).1 (by decide)
  obtain ⟨more, rfl, hqs⟩ := split_behind (by simp [hkey.symm]) hsplit
  cases more with
  | nil =>
      obtain ⟨-, rfl⟩ := List.cons.inj hqs
      exact ⟨⟨[], k, rfl⟩, htight⟩
  | cons p more =>
      obtain ⟨hlast, htight'⟩ := h more after (List.cons.inj hqs).2
      exact ⟨(hlast.prepend [p]).prepend _, htight'⟩

/-- A first part that is no string is the key of no list. -/
theorem ListsKeyed.later {p : List Char} (h : ListsKeyed (p :: ps)) (hp : p.head? ≠ some '\x22') :
    ListsKeyed ps := by
  intro before after hsplit
  obtain ⟨⟨front, k, hfront⟩, htight⟩ := h (p :: before) after (congrArg (p :: ·) hsplit)
  refine ⟨?_, htight⟩
  cases front with
  | nil =>
      obtain ⟨rfl, -⟩ := List.cons.inj hfront
      exact absurd (by rw [writeString_eq]; rfl) hp
  | cons _ front => exact ⟨front, k, (List.cons.inj hfront).2⟩

theorem tight_behind (hspaces : ∀ p ∈ ps, p.all isBlank = true) {p : List Char}
    (h : p.all isBlank = false) (hne : p ≠ [']']) : Tight (ps ++ p :: qs) := by
  intro hhead
  rw [List.dropWhile_append_of_pos hspaces, List.dropWhile_cons_of_neg (by simp [h])] at hhead
  exact absurd (Option.some.inj hhead) hne

theorem exists_parts (c : Char) (rest : List Char) :
    ∃ more later, parts (c :: rest) = (c :: more) :: later := by
  by_cases hc : c = '\x22'
  · subst hc
    by_cases hclosed : ∃ body after, Quote.string.Closes rest body after
    · obtain ⟨body, after, h⟩ := hclosed
      exact ⟨_, _, parts_quoted h⟩
    · exact ⟨_, _, parts_unclosed hclosed⟩
  · exact ⟨_, _, parts_character hc rest⟩

end

namespace Layout

variable {d : Nat} {key : Option String} {t trail : List Char} {rows : List Row}

theorem parts_newline (d : Nat) (after : List Char) :
    parts (newline d ++ after) = (newline d).map (fun c => [c]) ++ parts after :=
  parts_characters (fun c hc => (inert_newline d c hc).quote) after

theorem Laid.head (h : Laid d rows) (hne : rows ≠ []) : ∃ r later c rest, rows = r :: later ∧
    r.body = c :: rest ∧ isBlank c = false ∧ Bracket.isClosing c = false := by
  have hhead : ∀ {c}, isBlank c = false ∧ Bracket.isClosing c = false → ∀ key rest,
      ∃ e more, lead key ++ c :: rest = e :: more ∧ isBlank e = false ∧
        Bracket.isClosing e = false :=
    fun hc => head_lead (P := fun c => isBlank c = false ∧ Bracket.isClosing c = false)
      ⟨rfl, rfl⟩ hc
  cases h with
  | nil => exact absurd rfl hne
  | leaf h =>
      obtain ⟨⟨c, rest, rfl, hc⟩, -⟩ := h.ends
      obtain ⟨e, more, heq, he⟩ := hhead hc _ _
      exact ⟨_, _, e, more, rfl, heq, he⟩
  | @group _ b =>
      have hopening : isBlank b.opening = false ∧ Bracket.isClosing b.opening = false := by
        cases b <;> exact ⟨rfl, rfl⟩
      obtain ⟨e, more, heq, he⟩ := hhead hopening _ []
      exact ⟨_, _, e, more, rfl, heq, he⟩

theorem Laid.tight (h : Laid d rows) (hne : rows ≠ []) (after : List Char) :
    Tight (parts (rows.flatMap Row.text ++ after)) := by
  obtain ⟨r, later, c, rest, rfl, hbody, hblank, hclosing⟩ := h.head hne
  obtain ⟨more, parts', hparts⟩ := exists_parts c (rest ++ (later.flatMap Row.text ++ after))
  have hsplit : (r :: later).flatMap Row.text ++ after =
      newline r.depth ++ c :: (rest ++ (later.flatMap Row.text ++ after)) := by
    simp [Row.text, hbody]
  rw [hsplit, parts_newline, hparts]
  refine tight_behind (List.forall_mem_map.2 fun c hc => ?_) (by simp [hblank]) ?_
  · have hspace := spaces_newline r.depth c hc
    simp [isBlank_of_isSpace hspace]
  · rintro heq
    obtain ⟨rfl, -⟩ := List.cons.inj heq
    exact absurd hclosing (by decide)

/-- A text in which every list begins behind its key and an empty one ends there, if that is so of
what follows it. -/
def Keyed (text : List Char) : Prop :=
  ∀ after, ListsKeyed (parts after) → ListsKeyed (parts (text ++ after))

theorem Keyed.append {more : List Char} (h : Keyed t) (h' : Keyed more) : Keyed (t ++ more) := by
  intro after hafter
  rw [List.append_assoc]
  exact h _ (h' after hafter)

theorem keyed_plain (h : ∀ c ∈ t, c ≠ '\x22' ∧ c ≠ '[') : Keyed t := by
  intro after hafter
  rw [parts_characters fun c hc => (h c hc).1]
  refine hafter.prepend fun hmem => ?_
  obtain ⟨c, hc, heq⟩ := List.mem_map.1 hmem
  exact (h c hc).2 (List.cons.inj heq).1

theorem keyed_inert (h : ∀ c ∈ t, Inert c) : Keyed t :=
  keyed_plain fun c hc => ⟨(h c hc).quote, (h c hc).ne_opening .square⟩

theorem keyed_string (k : String) : Keyed (writeString k []) := by
  intro after hafter
  rw [← writeString_append, parts_writeString]
  have hnone : ['['] ∉ [writeString k []] := by
    rw [writeString_eq, List.mem_singleton]
    exact fun heq => absurd (List.cons.inj heq).1 (by decide)
  exact hafter.prepend hnone

theorem keyed_lead (key : Option String) : Keyed (lead key) := by
  cases key with
  | none => exact fun _ h => h
  | some k =>
      rw [lead, writeString_append]
      exact (keyed_string k).append (keyed_inert inert_colon)

theorem keyed_list (k : String) {after : List Char} (h : ListsKeyed (parts after))
    (htight : Tight (parts after)) : ListsKeyed (parts (lead (some k) ++ '[' :: after)) := by
  have hparts : parts (lead (some k) ++ '[' :: after) =
      [writeString k [], [':'], [' ']] ++ ['['] :: parts after := by
    rw [lead_some, parts_writeString, parts_character (by decide), parts_character (by decide),
      parts_character (by decide)]
    rfl
  rw [hparts]
  exact h.list k htight

theorem keyed_newline (d : Nat) : Keyed (newline d) := keyed_inert (inert_newline d)

/-- In a layout, every list begins behind its key and an empty one ends there. -/
theorem Laid.keyed (h : Laid d rows) : Keyed (rows.flatMap Row.text) := by
  induction h with
  | nil => exact fun _ hafter => hafter
  | @leaf d key t trail rows h htrail _ ih =>
      rw [List.flatMap_cons]
      have hrow : ∀ {t}, Keyed t → Keyed (Row.text ⟨d, lead key ++ (t ++ trail)⟩) := fun ht =>
        (keyed_newline d).append ((keyed_lead key).append (ht.append (keyed_inert htrail.inert)))
      cases h with
      | word _ hword =>
          have hinert := keyed_inert fun c hc => inert_of_isWordSign (hword c hc)
          exact (hrow hinert).append ih
      | string s => exact (hrow (keyed_string s)).append ih
      | empty k =>
          intro after hafter
          have hclose : Keyed (']' :: (trail ++ rows.flatMap Row.text)) :=
            (keyed_plain (t := [']']) (by simp)).append ((keyed_inert htrail.inert).append ih)
          have hlist := keyed_list k (hclose after hafter) fun _ => by
            rw [List.cons_append, parts_character (by decide)]
            rfl
          have hsplit : Row.text ⟨d, lead (some k) ++ (['[', ']'] ++ trail)⟩ ++
              rows.flatMap Row.text ++ after = newline d ++ (lead (some k) ++
                '[' :: (']' :: (trail ++ rows.flatMap Row.text) ++ after)) := by
            simp [Row.text]
          rw [hsplit]
          exact keyed_newline d _ hlist
  | @group d b key trail inner rows hkey hne hinner htrail _ ih ihlater =>
      have hbracket : Keyed [b.closing] := keyed_plain (by cases b <;> simp [Bracket.closing])
      have hclose : Keyed (newline d ++ (b.closing :: (trail ++ rows.flatMap Row.text))) :=
        (keyed_newline d).append (hbracket.append ((keyed_inert htrail.inert).append ihlater))
      intro after hafter
      have hsplit : (Row.mk d (lead key ++ [b.opening]) ::
          (inner ++ ⟨d, b.closing :: trail⟩ :: rows)).flatMap Row.text ++ after =
          newline d ++ (lead key ++ b.opening :: (inner.flatMap Row.text ++
            (newline d ++ (b.closing :: (trail ++ rows.flatMap Row.text)) ++ after))) := by
        simp [Row.text]
      rw [hsplit]
      have hrest := ih _ (hclose after hafter)
      refine keyed_newline d _ ?_
      cases b with
      | curly => exact keyed_lead key _ (keyed_plain (t := ['\x7b']) (by simp) _ hrest)
      | square =>
          obtain ⟨k, rfl⟩ := Option.isSome_iff_exists.1 (hkey rfl)
          exact keyed_list k hrest (hinner.tight hne _)

/-! ## The depth of the machine -/

def Saturates (s : State) (c : Char) : Prop :=
  s.mode = .plain ∧ Bracket.isClosing c = true ∧ s.depth = 0

/-- A text leads the machine from a state to another, and it closes no bracket at depth zero on the
way. -/
inductive Passes : State → List Char → State → Prop
  | nil {s : State} : Passes s [] s
  | cons {s next : State} {c : Char} {rest : List Char} (hsafe : ¬ Saturates s c)
      (later : Passes (step s c).2 rest next) : Passes s (c :: rest) next

section

variable {s s' s'' : State} {c : Char} {more body : List Char}

theorem Passes.append (h : Passes s t s') (h' : Passes s' more s'') : Passes s (t ++ more) s'' := by
  induction h with
  | nil => exact h'
  | cons hsafe _ ih => exact .cons hsafe (ih h')

theorem passes_sign (hsafe : ¬ Saturates s c) (hstep : (step s c).2 = s') : Passes s [c] s' :=
  .cons hsafe (hstep ▸ .nil)

/-- In a string and right after an opening bracket, none is closed at depth zero. -/
theorem not_saturates (h : s.mode ≠ .plain) : ¬ Saturates s c := fun hs => h hs.1

theorem passes_word (h : ∀ c ∈ t, isWordSign c = true) : Passes ⟨.plain, d⟩ t ⟨.plain, d⟩ := by
  induction t with
  | nil => exact .nil
  | cons c t ih =>
      obtain ⟨hc, ht⟩ := List.forall_mem_cons.1 h
      have hstep : (step ⟨.plain, d⟩ c).2 = ⟨.plain, d⟩ := congrArg Prod.snd (plainStep_word hc)
      have hclosing := (inert_of_isWordSign hc).closing
      refine .cons (fun hs => Bool.false_ne_true (hclosing.symm.trans hs.2.1)) ?_
      rw [hstep]
      exact ih ht

theorem passes_items (h : Quote.string.Items body) : Passes ⟨.quoted, d⟩ body ⟨.quoted, d⟩ := by
  induction h with
  | nil => exact .nil
  | @plain c body hquote hslash _ ih =>
      have hstep : (step ⟨.quoted, d⟩ c).2 = ⟨.quoted, d⟩ := by
        simp [step, show c ≠ '\x22' from hquote, hslash]
      refine .cons (not_saturates (by simp)) ?_
      rwa [hstep]
  | escaped _ ih =>
      have hescaped : Mode.escaped ≠ .plain := by decide
      exact .cons (not_saturates (by simp)) (.cons (not_saturates hescaped) ih)

theorem passes_string (k : String) : Passes ⟨.plain, d⟩ (writeString k []) ⟨.plain, d⟩ := by
  rw [writeString_eq]
  exact .cons (fun hs => absurd hs.2.1 (by decide))
    ((passes_items (closes_writeString k []).items).append (passes_sign (not_saturates (by simp)) rfl))

theorem passes_lead (key : Option String) : Passes ⟨.plain, d⟩ (lead key) ⟨.plain, d⟩ := by
  cases key with
  | none => exact .nil
  | some k =>
      rw [lead, writeString_append]
      exact (passes_string k).append ((passes_sign (fun hs => absurd hs.2.1 (by decide)) rfl).append
        (passes_sign (fun hs => absurd hs.2.1 (by decide)) rfl))

theorem passes_comma : Passes ⟨.plain, d⟩ [',', ' '] ⟨.plain, d⟩ :=
  (passes_sign (fun hs => absurd hs.2.1 (by decide)) rfl).append
    (passes_sign (fun hs => absurd hs.2.1 (by decide)) rfl)

/-- Between brackets that are not empty, the machine is one level deeper. -/
theorem passes_group {tags : List String} (hcompact : Compact .items tags t)
    (h : Passes ⟨.plain, d + 1⟩ t ⟨.plain, d + 1⟩) (b : Bracket) :
    Passes ⟨.plain, d⟩ (b.opening :: (t ++ [b.closing])) ⟨.plain, d⟩ := by
  have hopening : (step ⟨.plain, d⟩ b.opening).2 = ⟨.opened b, d⟩ := by cases b <;> rfl
  have hclosing : (step ⟨.plain, d + 1⟩ b.closing).2 = ⟨.plain, d⟩ := by cases b <;> rfl
  have hend := h.append (passes_sign (fun hs => absurd hs.2.2 (Nat.succ_ne_zero d)) hclosing)
  refine .cons (fun hs => absurd hs.2.1 (by cases b <;> decide)) ?_
  rw [hopening]
  obtain ⟨c, rest, rfl, hblank, hc⟩ := hcompact.head
  have hne : c ≠ b.closing := by
    rintro rfl
    cases b <;> exact absurd hc (by decide)
  -- the first character is taken as on the next level
  have hfirst : (step ⟨.opened b, d⟩ c).2 = (step ⟨.plain, d + 1⟩ c).2 := by
    simp [step, hblank, hne]
  cases hend with
  | cons _ later => exact .cons (not_saturates (by simp)) (hfirst ▸ later)

/-- A text of the grammar leaves the depth as it is. -/
theorem passes_compact {piece : Piece} {tags : List String} (h : Compact piece tags t) (d : Nat) :
    Passes ⟨.plain, d⟩ t ⟨.plain, d⟩ := by
  induction h generalizing d with
  | word _ h => exact passes_word h
  | string s => exact passes_string s
  | empty =>
      have hopened : Mode.opened .square ≠ .plain := by decide
      exact .cons (fun hs => absurd hs.2.1 (by decide)) (passes_sign (not_saturates hopened) rfl)
  | list h ih => exact passes_group h (ih (d + 1)) .square
  | object h ih => exact passes_group h (ih (d + 1)) .curly
  | one _ _ ih => exact (passes_lead _).append (ih d)
  | more _ _ _ ih ihlater =>
      exact (passes_lead _).append ((ih d).append (passes_comma.append (ihlater d)))

end

/-! ## Lines -/

def EndsLine (text : List Char) : Prop := text = [] ∨ ∃ rest, text = '\n' :: rest

structure IsLine (text before line after : List Char) : Prop where
  split : text = before ++ (line ++ after)
  unbroken : '\n' ∉ line
  begins : before = [] ∨ ∃ front, before = front ++ ['\n']
  ends : EndsLine after

/-- Where a line ends is determined by the text that it begins. -/
theorem line_inj {line line' after after' : List Char} (h : '\n' ∉ line) (h' : '\n' ∉ line')
    (hends : EndsLine after) (hends' : EndsLine after') (heq : line ++ after = line' ++ after') :
    line = line' := by
  have hbreak : ∀ {cs : List Char}, EndsLine cs → ∀ c ∈ cs.head?, (c != '\n') = false := by
    rintro _ (rfl | ⟨rest, rfl⟩)
    · exact fun c hc => absurd hc (by simp)
    · rintro c ⟨⟩
      rfl
  have hunbroken : ∀ {cs : List Char}, '\n' ∉ cs → ∀ c ∈ cs, (c != '\n') = true :=
    fun hcs c hc => bne_iff_ne.2 (ne_of_mem_of_not_mem hc hcs)
  exact (runs_inj (hunbroken h) (hunbroken h') (hbreak hends) (hbreak hends') heq).1

def Row.line (r : Row) : List Char := List.replicate r.depth '\t' ++ r.body

theorem flatMap_text_cons (r : Row) (rows : List Row) :
    (r :: rows).flatMap Row.text = '\n' :: (r.line ++ rows.flatMap Row.text) := by
  simp [Row.text, Row.line, newline]

theorem endsLine_rows (rows : List Row) : EndsLine (rows.flatMap Row.text) := by
  cases rows with
  | nil => exact .inl rfl
  | cons r rows => exact .inr ⟨_, flatMap_text_cons r rows⟩

theorem Row.Tidy.newline_not_mem {r : Row} (h : r.Tidy) : '\n' ∉ r.line :=
  List.not_mem_append (fun hmem => absurd (List.eq_of_mem_replicate hmem) (by decide)) h.unbroken

theorem exists_row {before line after : List Char} (hrows : ∀ r ∈ rows, r.Tidy)
    (hline : '\n' ∉ line) (hends : EndsLine after)
    (h : rows.flatMap Row.text = before ++ '\n' :: (line ++ after)) :
    ∃ front r back, rows = front ++ r :: back ∧ before = front.flatMap Row.text ∧
      line = r.line := by
  induction rows generalizing before with
  | nil => exact absurd h (by simp)
  | cons r rows ih =>
      obtain ⟨hr, hlater⟩ := List.forall_mem_cons.1 hrows
      rw [flatMap_text_cons] at h
      cases before with
      | nil =>
          have hfirst : r.line = line := line_inj hr.newline_not_mem hline (endsLine_rows rows)
            hends (List.cons.inj h).2
          exact ⟨[], r, rows, rfl, rfl, hfirst.symm⟩
      | cons c before =>
          obtain ⟨rfl, htail⟩ := List.cons.inj h
          obtain ⟨more, rfl, hmore⟩ := split_behind hr.newline_not_mem htail
          obtain ⟨front, r', back, rfl, rfl, hr'⟩ := ih hlater hmore
          exact ⟨r :: front, r', back, rfl, (flatMap_text_cons r front).symm, hr'⟩

theorem open_of_moves {cs : List Char} {s : List Bracket} (h : Moves [] ('\n' :: cs) s) :
    open? cs = some s := by
  have hend := h []
  rw [List.append_nil] at hend
  exact (moves_newline 0 cs).symm.trans hend

/-- A line that stands behind a text is indented by as many tabs as brackets are open there, less
one if it begins by closing one.  It is not blank, and it does not end with a blank. -/
def IndentedBehind (before line : List Char) : Prop :=
  ∃ tabs body stack, line = List.replicate tabs '\t' ++ body ∧ open? before = some stack ∧
    tabs + closings body = stack.length ∧
    (∃ c rest, body = c :: rest ∧ isBlank c = false) ∧
    ∃ front c, body = front ++ [c] ∧ isBlank c = false

/-- The lines of a text that is written on rows are indented as the rows are. -/
theorem Indented.line {s : List Bracket} {text before line after : List Char}
    (h : Indented [] rows s) (hrows : ∀ r ∈ rows, r.Tidy)
    (htext : '\n' :: text = rows.flatMap Row.text) (hline : IsLine text before line after) :
    IndentedBehind before line := by
  obtain ⟨pre, hpre⟩ : ∃ pre, '\n' :: before = pre ++ ['\n'] := by
    rcases hline.begins with rfl | ⟨front, rfl⟩
    · exact ⟨[], rfl⟩
    · exact ⟨'\n' :: front, rfl⟩
  have hsplit : rows.flatMap Row.text = pre ++ '\n' :: (line ++ after) := by
    rw [← htext, hline.split, ← List.cons_append, hpre, List.append_assoc]
    rfl
  obtain ⟨front, r, back, rfl, rfl, rfl⟩ := exists_row hrows hline.unbroken hline.ends hsplit
  obtain ⟨t, hfront, hback⟩ := h.split
  obtain - | ⟨hdepth, -, -⟩ := hback
  have htidy := hrows r (by simp)
  have hmoves : Moves [] ('\n' :: before) t := hpre ▸ hfront.moves.append (moves_newline 0)
  exact ⟨r.depth, r.body, t, rfl, open_of_moves hmoves, hdepth, htidy.head, htidy.last⟩

end Layout

/-! ## Whole texts -/

open Layout

/-- A text whose layout has one item a line, indented by the brackets that are open.  The machine
closes no bracket at depth zero and ends there; every list begins behind its key, and an empty one
ends there; no string has a line break. -/
structure LaidOut (text : List Char) : Prop where
  same : strip (layout text) = strip text
  indented : ∀ before line after, IsLine (layout text) before line after →
    IndentedBehind before line
  settled : open? (layout text) = some []
  steady : Passes start text start
  lists : ListsKeyed (parts (layout text))
  strings : ∀ q ∈ quotations (layout text), '\n' ∉ q

theorem newline_not_mem_compact {piece : Piece} {tags : List String} {t : List Char}
    (h : Compact piece tags t) : '\n' ∉ t := by
  induction h with
  | word _ h => exact fun hc => absurd (h _ hc) (by decide)
  | string s => exact newline_not_mem_writeString s
  | empty => decide
  | list _ ih =>
      exact List.not_mem_cons_of_ne_of_not_mem (by decide) (List.not_mem_append ih (by decide))
  | object _ ih =>
      exact List.not_mem_cons_of_ne_of_not_mem (by decide) (List.not_mem_append ih (by decide))
  | one _ _ ih => exact List.not_mem_append (newline_not_mem_lead _) ih
  | more _ _ _ ih ihlater =>
      refine List.not_mem_append (newline_not_mem_lead _) (List.not_mem_append ih ?_)
      exact List.not_mem_cons_of_ne_of_not_mem (by decide)
        (List.not_mem_cons_of_ne_of_not_mem (by decide) ihlater)

theorem flatten_parts (text : List Char) : (parts text).flatten = text := by
  induction text using parts_induction with
  | nil => rfl
  | blank c rest hblank ih => rw [parts_blank hblank, List.flatten_cons, ih]; rfl
  | sign c rest _ hquote ih => rw [parts_character hquote, List.flatten_cons, ih]; rfl
  | quoted text body rest h ih =>
      rw [parts_quoted h, List.flatten_cons, ih, h.split]
      simp [Quote.mark]
  | unclosed text h => rw [parts_unclosed h]; exact List.append_nil _

theorem Compact.laidOut {tags : List String} {text : List Char} (h : Compact .other tags text) :
    LaidOut text := by
  obtain ⟨rows, hlaid, htext⟩ := exists_rows h
  have hindented : Indented [] rows [] := hlaid.indented [] rfl
  refine ⟨strip_layout text, fun _ _ _ => hindented.line hlaid.tidy htext,
    open_of_moves (htext ▸ hindented.moves), passes_compact h 0, ?_, ?_⟩
  · have hkeyed := hlaid.keyed [] (fun before after hnil => absurd hnil (by simp [parts]))
    rw [List.append_nil, ← htext, parts_character (by decide)] at hkeyed
    exact hkeyed.later (by decide)
  · intro q hq hmem
    rw [← quotations_strip, strip_layout, quotations_strip] at hq
    refine newline_not_mem_compact h ?_
    rw [← flatten_parts text]
    exact List.mem_flatten.2 ⟨q, (List.mem_filter.1 hq).1, hmem⟩

end MiniJava.Json
