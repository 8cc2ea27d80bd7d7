import MiniJava.Proofs.Json.Spacing
/-!
# The layout of JSON texts

The machine that lays a text out changes only the blanks between the parts of the compact text of a
value, so that what it writes denotes the value too.  It takes strings for what the grammar takes
them for, whatever they contain.
-/

namespace MiniJava.Json.Layout

open MiniJava.Text

variable {d : Nat} {c : Char} {t after : List Char}

theorem run_cons (s : State) (c : Char) (rest : List Char) :
    run s (c :: rest) = (step s c).1 ++ run (step s c).2 rest := rfl

/-! ## Words -/

theorem plainStep_word (h : isWordSign c = true) : plainStep d c = ([c], ⟨.plain, d⟩) := by
  simp only [isWordSign, Bool.and_eq_true, Bool.not_eq_true', decide_eq_true_eq, List.mem_cons,
    List.not_mem_nil, or_false, not_or] at h
  obtain ⟨hblank, hquote, hcomma, hcolon, hsquare, hsquare', hcurly, hcurly'⟩ := h
  simp [plainStep, Bracket.ofOpening?, Bracket.isClosing, hblank, hquote, hcomma, hcolon, hsquare,
    hsquare', hcurly, hcurly']

theorem run_word (h : ∀ c ∈ t, isWordSign c = true) :
    run ⟨.plain, d⟩ (t ++ after) = t ++ run ⟨.plain, d⟩ after := by
  induction t with
  | nil => rfl
  | cons c t ih =>
      obtain ⟨hc, ht⟩ := List.forall_mem_cons.1 h
      have hstep : step ⟨.plain, d⟩ c = ([c], ⟨.plain, d⟩) := plainStep_word hc
      rw [List.cons_append, run_cons, hstep, ih ht]
      rfl

/-! ## Strings -/

theorem run_quoted_plain (hquote : c ≠ '\x22') (hslash : c ≠ '\\') :
    run ⟨.quoted, d⟩ (c :: after) = c :: run ⟨.quoted, d⟩ after := by
  have hstep : step ⟨.quoted, d⟩ c = ([c], ⟨.quoted, d⟩) := by
    simp [step, hquote, hslash]
  rw [run_cons, hstep]
  rfl

theorem run_quoted_escape :
    run ⟨.quoted, d⟩ ('\\' :: c :: after) = '\\' :: c :: run ⟨.quoted, d⟩ after := rfl

theorem run_codeUnit {n : Nat} {ds : List Char} (h : CodeUnit n ds) :
    run ⟨.quoted, d⟩ (ds ++ after) = ds ++ run ⟨.quoted, d⟩ after := by
  have hcopied : ∀ c ∈ ds, c ≠ '\x22' ∧ c ≠ '\\' := by
    intro c hc
    have hdigit := h.2.1 c hc
    constructor <;> rintro rfl <;> exact absurd hdigit (by decide)
  clear h
  induction ds with
  | nil => rfl
  | cons c ds ih =>
      obtain ⟨hc, hds⟩ := List.forall_mem_cons.1 hcopied
      rw [List.cons_append, run_quoted_plain hc.1 hc.2, ih hds, List.cons_append]

/-- However a character is written inside a string, it is copied. -/
theorem run_written (h : Written c t) :
    run ⟨.quoted, d⟩ (t ++ after) = t ++ run ⟨.quoted, d⟩ after := by
  cases h with
  | plain hquote hslash _ => exact run_quoted_plain hquote hslash
  | short => exact run_quoted_escape
  | code hcode =>
      rw [List.cons_append, List.cons_append, run_quoted_escape, run_codeUnit hcode]
      rfl
  | pair _ _ _ hhigh hlow =>
      simp only [List.cons_append, List.append_assoc]
      rw [run_quoted_escape, run_codeUnit hhigh, run_quoted_escape, run_codeUnit hlow]

theorem run_characters {cs : List Char} (h : Characters cs t) :
    run ⟨.quoted, d⟩ (t ++ after) = t ++ run ⟨.quoted, d⟩ after := by
  induction h with
  | nil => rfl
  | cons hc _ ih => rw [List.append_assoc, run_written hc, ih, List.append_assoc]

theorem run_quoted {s : String} (h : Quoted s t) :
    run ⟨.plain, d⟩ (t ++ after) = t ++ run ⟨.plain, d⟩ after := by
  obtain ⟨hcharacters⟩ := h
  have hopen : ∀ rest, run ⟨.plain, d⟩ ('\x22' :: rest) = '\x22' :: run ⟨.quoted, d⟩ rest :=
    fun _ => rfl
  have hclose : run ⟨.quoted, d⟩ ('\x22' :: after) = '\x22' :: run ⟨.plain, d⟩ after := rfl
  rw [List.cons_append, List.append_assoc, hopen, run_characters hcharacters, List.singleton_append,
    hclose]
  simp

/-! ## Brackets and separators -/

theorem spaces_newline (d : Nat) : Spaces (newline d) := by
  refine List.forall_mem_cons.2 ⟨rfl, fun c hc => ?_⟩
  rw [List.eq_of_mem_replicate hc]
  rfl

theorem run_opening {b : Bracket} (hblank : isBlank c = false) (hclosing : c ≠ b.closing) :
    run ⟨.plain, d⟩ (b.opening :: c :: after) =
      b.opening :: (newline (d + 1) ++ run ⟨.plain, d + 1⟩ (c :: after)) := by
  have hopen : run ⟨.plain, d⟩ (b.opening :: c :: after) =
      b.opening :: run ⟨.opened b, d⟩ (c :: after) := by cases b <;> rfl
  have hstep : step ⟨.opened b, d⟩ c =
      (newline (d + 1) ++ (plainStep (d + 1) c).1, (plainStep (d + 1) c).2) := by
    simp [step, hblank, hclosing]
  rw [hopen, run_cons, hstep, run_cons, List.append_assoc]
  rfl

theorem run_closing {b : Bracket} :
    run ⟨.plain, d + 1⟩ (b.closing :: after) =
      newline d ++ b.closing :: run ⟨.plain, d⟩ after := by
  have hstep : step ⟨.plain, d + 1⟩ b.closing = (newline d ++ [b.closing], ⟨.plain, d⟩) := by
    cases b <;> rfl
  rw [run_cons, hstep, List.append_assoc]
  rfl

/-- Laying a text out changes only the blanks between its parts. -/
theorem spacing_run : Spacing fun d text => run ⟨.plain, d⟩ text where
  word _ _ h := run_word h
  quoted s d after := by rw [writeString_append, run_quoted (quoted_writeString s)]
  separator := by
    refine List.forall_mem_cons.2 ⟨fun d => ?_, List.forall_mem_singleton.2 fun d => ?_⟩
    · exact ⟨newline d, spaces_newline d, fun _ => rfl⟩
    · exact ⟨[' '], List.forall_mem_singleton.2 rfl, fun _ => rfl⟩
  empty b _ _ := by cases b <;> rfl
  opening _ d := ⟨newline (d + 1), spaces_newline _, fun _ _ => run_opening⟩
  closing _ d := ⟨newline d, spaces_newline _, fun _ => run_closing⟩

end MiniJava.Json.Layout

namespace MiniJava.Json

/-- A text and its layout denote this value and no other. -/
def Shown (j : Json) (text : String) : Prop :=
  ∀ v, (Document v text.toList ↔ v = j.value) ∧ (Document v (layout text.toList) ↔ v = j.value)

/-- A value whose numbers are written as numerals is shown by its compact text. -/
theorem shown_compact {j : Json} (h : ∀ x ∈ j.reals, Numeral x.text) :
    j.Shown (String.ofList j.compact) := by
  have hlayout : Document j.value (layout j.compact) := document_spacing Layout.spacing_run rfl h
  intro v
  rw [String.toList_ofList]
  exact ⟨⟨fun hv => hv.inj (document_compact h), fun hv => hv ▸ document_compact h⟩,
    ⟨fun hv => hv.inj hlayout, fun hv => hv ▸ hlayout⟩⟩

theorem Shown.value_eq {i j : Json} {text : String} (hi : i.Shown text) (hj : j.Shown text) :
    i.value = j.value := (hj _).1.1 ((hi _).1.2 rfl)

end MiniJava.Json
