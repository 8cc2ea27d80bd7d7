import MiniJava.Proofs.Json.Compact
/-!
# The rows of a layout

A value that takes no more than a row stands on one behind its key.  Any other value begins on a
row, goes on one level deeper, and ends on a row of its own.
-/

namespace MiniJava.Json.Layout

open MiniJava.Text

/-- A line of a layout: how many tabs it begins with, and what follows them. -/
structure Row where
  depth : Nat
  body : List Char

def Row.text (r : Row) : List Char := newline r.depth ++ r.body

/-- The values that stand on one row, behind a key or not. -/
inductive Leaf : Option String → List Char → Prop
  | word {key : Option String} {t : List Char} (hne : t ≠ [])
      (h : ∀ c ∈ t, isWordSign c = true) : Leaf key t
  | string {key : Option String} (s : String) : Leaf key (writeString s [])
  | empty (k : String) : Leaf (some k) ['[', ']']

theorem inert_newline (d : Nat) : ∀ c ∈ newline d, Inert c := by
  refine List.forall_mem_cons.2 ⟨⟨by decide, rfl, rfl⟩, fun c hc => ?_⟩
  rw [List.eq_of_mem_replicate hc]
  exact ⟨by decide, rfl, rfl⟩

def Trail (t : List Char) : Prop := t = [] ∨ t = [',']

theorem Trail.inert {t : List Char} (h : Trail t) : ∀ c ∈ t, Inert c := by
  rcases h with rfl | rfl
  · exact List.forall_mem_nil _
  · exact List.forall_mem_singleton.2 ⟨by decide, rfl, rfl⟩

/-- The rows of values that stand at a depth, one after another. -/
inductive Laid : Nat → List Row → Prop
  | nil {d : Nat} : Laid d []
  | leaf {d : Nat} {key : Option String} {t trail : List Char} {rows : List Row}
      (h : Leaf key t) (htrail : Trail trail) (later : Laid d rows) :
      Laid d (⟨d, lead key ++ (t ++ trail)⟩ :: rows)
  | group {d : Nat} {b : Bracket} {key : Option String} {trail : List Char}
      {inner rows : List Row} (hkey : b = .square → key.isSome) (hne : inner ≠ [])
      (h : Laid (d + 1) inner) (htrail : Trail trail) (later : Laid d rows) :
      Laid d (⟨d, lead key ++ [b.opening]⟩ :: (inner ++ ⟨d, b.closing :: trail⟩ :: rows))

variable {d : Nat} {t after : List Char} {tags : List String} {piece : Piece}

theorem Laid.append {rows more : List Row} (h : Laid d rows) (h' : Laid d more) :
    Laid d (rows ++ more) := by
  induction h with
  | nil => exact h'
  | leaf h htrail _ ih => exact .leaf h htrail (ih h')
  | group hkey hne h htrail _ _ ih =>
      rw [List.cons_append, List.append_assoc, List.cons_append]
      exact .group hkey hne h htrail (ih h')

/-! ## What the machine writes for a text -/

theorem run_lead (key : Option String) :
    run ⟨.plain, d⟩ (lead key ++ after) = lead key ++ run ⟨.plain, d⟩ after := by
  cases key with
  | none => rfl
  | some k =>
      have hcolon : run ⟨.plain, d⟩ (':' :: ' ' :: after) =
          ':' :: ' ' :: run ⟨.plain, d⟩ after := rfl
      rw [lead_some, lead_some, writeString_append, run_quoted (quoted_writeString k), hcolon,
        writeString_append k (':' :: _)]

theorem run_comma : run ⟨.plain, d⟩ (',' :: ' ' :: after) =
    ',' :: (newline d ++ run ⟨.plain, d⟩ after) := rfl

/-- What stands between brackets is written one level deeper. -/
theorem run_group (h : Compact .items tags t) {b : Bracket} {out : List Char}
    (hout : ∀ after, run ⟨.plain, d + 1⟩ (t ++ after) = out ++ run ⟨.plain, d + 1⟩ after)
    (after : List Char) :
    run ⟨.plain, d⟩ (b.opening :: (t ++ [b.closing]) ++ after) =
      b.opening :: (newline (d + 1) ++ (out ++ (newline d ++ [b.closing]))) ++
        run ⟨.plain, d⟩ after := by
  obtain ⟨c, rest, rfl, hblank, hclosing⟩ := h.head
  have hne : c ≠ b.closing := by
    rintro rfl
    cases b <;> exact absurd hclosing (by decide)
  have hclose := hout (b.closing :: after)
  rw [run_closing] at hclose
  simp only [List.cons_append, List.append_assoc, List.nil_append] at hclose ⊢
  rw [run_opening hblank hne, hclose]

def Fits : Piece → Option String → List Char → Prop
  | .list, key, trail => key.isSome ∧ Trail trail
  | .other, _, trail => Trail trail
  | .items, key, trail => key = none ∧ trail = []

/-- A text is written on rows, whatever stands around it. -/
def Lays (piece : Piece) (t : List Char) : Prop :=
  ∀ d, ∃ out, (∀ after, run ⟨.plain, d⟩ (t ++ after) = out ++ run ⟨.plain, d⟩ after) ∧
    ∀ key trail, Fits piece key trail → ∃ rows, rows ≠ [] ∧ Laid d rows ∧
      newline d ++ (lead key ++ (out ++ trail)) = rows.flatMap Row.text

theorem Leaf.lays (h : ∀ key trail, Fits piece key trail → Leaf key t ∧ Trail trail)
    (hrun : ∀ d after, run ⟨.plain, d⟩ (t ++ after) = t ++ run ⟨.plain, d⟩ after) :
    Lays piece t := by
  intro d
  refine ⟨t, hrun d, fun key trail hfits => ?_⟩
  obtain ⟨hleaf, htrail⟩ := h key trail hfits
  exact ⟨_, List.cons_ne_nil _ _, .leaf hleaf htrail .nil, by simp [Row.text]⟩

theorem lays_group {b : Bracket} (hcompact : Compact .items tags t) (h : Lays .items t)
    (hkey : ∀ key trail, Fits piece key trail → (b = .square → key.isSome) ∧ Trail trail) :
    Lays piece (b.opening :: (t ++ [b.closing])) := by
  intro d
  obtain ⟨out, hout, hrows⟩ := h (d + 1)
  refine ⟨_, run_group hcompact hout, fun key trail hfits => ?_⟩
  obtain ⟨hsquare, htrail⟩ := hkey key trail hfits
  obtain ⟨inner, hne, hlaid, htext⟩ := hrows none [] ⟨rfl, rfl⟩
  refine ⟨_, List.cons_ne_nil _ _, .group (b := b) hsquare hne hlaid htrail .nil, ?_⟩
  have hinner : inner.flatMap Row.text = newline (d + 1) ++ out := by
    rw [← htext, List.append_nil]
    rfl
  simp [Row.text, hinner]

/-- A text of the grammar is laid out on rows. -/
theorem lays_compact (h : Compact piece tags t) : Lays piece t := by
  induction h with
  | word hne h => exact Leaf.lays (fun _ _ hfits => ⟨.word hne h, hfits⟩) fun _ _ => run_word h
  | string s =>
      exact Leaf.lays (fun _ _ hfits => ⟨.string s, hfits⟩) fun _ _ =>
        run_quoted (quoted_writeString s)
  | empty =>
      refine Leaf.lays (fun key trail hfits => ?_) fun _ _ => rfl
      obtain ⟨hkey, htrail⟩ := hfits
      obtain ⟨k, rfl⟩ := Option.isSome_iff_exists.1 hkey
      exact ⟨.empty k, htrail⟩
  | list h ih => exact lays_group (b := .square) h ih fun _ _ hfits => ⟨fun _ => hfits.1, hfits.2⟩
  | object h ih => exact lays_group (b := .curly) h ih fun _ _ hfits => ⟨nofun, hfits⟩
  | @one key piece _ t hpiece _ ih =>
      intro d
      obtain ⟨out, hout, hrows⟩ := ih d
      refine ⟨lead key ++ out, fun after => ?_, ?_⟩
      · rw [List.append_assoc, run_lead, hout, List.append_assoc]
      · rintro _ _ ⟨rfl, rfl⟩
        obtain ⟨rows, hne, hlaid, htext⟩ := hrows key [] (by
          rcases hpiece with rfl | ⟨rfl, hkey⟩
          · exact .inl rfl
          · exact ⟨hkey, .inl rfl⟩)
        exact ⟨rows, hne, hlaid, by rw [← htext]; simp [lead]⟩
  | @more key piece _ _ t ts hpiece _ _ ih ihlater =>
      intro d
      obtain ⟨out, hout, hrows⟩ := ih d
      obtain ⟨outs, houts, hlater⟩ := ihlater d
      refine ⟨lead key ++ (out ++ ',' :: (newline d ++ outs)), fun after => ?_, ?_⟩
      · have hsplit : lead key ++ (t ++ ',' :: ' ' :: ts) ++ after =
            lead key ++ (t ++ ',' :: ' ' :: (ts ++ after)) := by simp
        rw [hsplit, run_lead, hout, run_comma, houts]
        simp
      · rintro _ _ ⟨rfl, rfl⟩
        -- the comma is the last character on the rows of the value before it
        obtain ⟨rows, hne, hlaid, htext⟩ := hrows key [','] (by
          rcases hpiece with rfl | ⟨rfl, hkey⟩
          · exact .inr rfl
          · exact ⟨hkey, .inr rfl⟩)
        obtain ⟨more, -, hlaid', htext'⟩ := hlater none [] ⟨rfl, rfl⟩
        refine ⟨rows ++ more, List.append_ne_nil_of_left_ne_nil hne _, hlaid.append hlaid', ?_⟩
        rw [List.flatMap_append, ← htext, ← htext']
        simp [lead]

theorem exists_rows (h : Compact .other tags t) :
    ∃ rows, Laid 0 rows ∧ '\n' :: layout t = rows.flatMap Row.text := by
  obtain ⟨out, hout, hrows⟩ := lays_compact h 0
  obtain ⟨rows, -, hlaid, htext⟩ := hrows none [] (.inl rfl)
  refine ⟨rows, hlaid, ?_⟩
  have hlayout : layout t = out := by
    have hend := hout []
    rw [List.append_nil] at hend
    exact hend.trans (List.append_nil _)
  rw [hlayout, ← htext, List.append_nil]
  rfl

end MiniJava.Json.Layout
