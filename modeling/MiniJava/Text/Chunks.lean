/-!
# Cutting a text into pieces

A reader looks at the front of a text and says what stands there and how many
characters it covers. Applied again and again, it cuts the text into pieces,
until it finds none. The recursion runs over the characters themselves: inside a
piece it counts down to the next cut.
-/

namespace MiniJava.Text

variable {α : Type}

/-- The pieces of a text, after the `skip` characters that belong to an earlier piece. -/
def chunksAfter (read? : List Char → Option α) (width : α → Nat) : Nat → List Char → List α
  | _, [] => []
  | skip + 1, _ :: rest => chunksAfter read? width skip rest
  | 0, c :: rest =>
    match read? (c :: rest) with
    | none => []
    | some a => a :: chunksAfter read? width (width a - 1) rest

def chunks (read? : List Char → Option α) (width : α → Nat) (text : List Char) : List α :=
  chunksAfter read? width 0 text

theorem chunksAfter_eq (read? : List Char → Option α) (width : α → Nat) (skip : Nat)
    (text : List Char) :
    chunksAfter read? width skip text = chunks read? width (text.drop skip) := by
  induction text generalizing skip with
  | nil => cases skip <;> rfl
  | cons c rest ih =>
    cases skip with
    | zero => rfl
    | succ skip => exact ih skip

@[simp] theorem chunks_nil (read? : List Char → Option α) (width : α → Nat) :
    chunks read? width [] = [] := rfl

theorem chunks_of_none {read? : List Char → Option α} {width : α → Nat} {text : List Char}
    (h : read? text = none) : chunks read? width text = [] := by
  cases text with
  | nil => rfl
  | cons c rest => simp [chunks, chunksAfter, h]

/-- A piece that covers at least one character is followed by the pieces of what it leaves. -/
theorem chunks_of_some {read? : List Char → Option α} {width : α → Nat} {text : List Char}
    {a : α} (hne : text ≠ []) (h : read? text = some a) (hw : 0 < width a) :
    chunks read? width text = a :: chunks read? width (text.drop (width a)) := by
  cases text with
  | nil => exact absurd rfl hne
  | cons c rest =>
    obtain ⟨w, hw'⟩ : ∃ w, width a = w + 1 := ⟨width a - 1, by omega⟩
    have step : chunks read? width (c :: rest) =
        a :: chunksAfter read? width (width a - 1) rest := by
      rw [chunks, chunksAfter, h]
    rw [step, chunksAfter_eq, hw', List.drop_succ_cons, Nat.add_sub_cancel]

end MiniJava.Text
