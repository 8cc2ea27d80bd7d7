import MiniJava.Text.Chunks
import Mathlib.Data.List.Infix
/-!
# Loops over a text

A loop looks at the front of a text and takes something off it, round after round, until there is
nothing more to take.  A loop that takes a character or more in each round comes to an end, after no
more rounds than there are characters.
-/

namespace MiniJava.Text

/-- A loop over a text: what it takes off the front in each round, a character or more, and what is
left where it stops. -/
inductive Rounds (round : List Char → Option (List Char)) :
    List Char → List (List Char) → List Char → Prop
  | stop {left : List Char} (h : round left = none) : Rounds round left [] left
  | next {piece rest left : List Char} {pieces : List (List Char)}
      (h : round (piece ++ rest) = some piece) (hne : piece ≠ [])
      (later : Rounds round rest pieces left) : Rounds round (piece ++ rest) (piece :: pieces) left

variable {round : List Char → Option (List Char)} {text left : List Char}
  {pieces : List (List Char)}

theorem Rounds.split (h : Rounds round text pieces left) : text = pieces.flatten ++ left := by
  induction h with
  | stop => rfl
  | next _ _ _ ih => rw [List.flatten_cons, List.append_assoc, ← ih]

theorem Rounds.stopped (h : Rounds round text pieces left) : round left = none := by
  induction h with
  | stop h => exact h
  | next _ _ _ ih => exact ih

theorem Rounds.next_single {c : Char} {rest : List Char} (h : round (c :: rest) = some [c])
    (later : Rounds round rest pieces left) : Rounds round (c :: rest) ([c] :: pieces) left :=
  .next h (List.cons_ne_nil c []) later

theorem Rounds.length_le (h : Rounds round text pieces left) :
    pieces.length + left.length ≤ text.length := by
  induction h with
  | stop => exact Nat.le_of_eq (Nat.zero_add _)
  | @next piece rest left pieces _ hne _ ih =>
      have hpos : 0 < piece.length := List.length_pos_iff.2 hne
      rw [List.length_cons, List.length_append]
      omega

def Advances {α : Type} (read? : List Char → Option α) (text : α → List Char) : Prop :=
  ∀ s a, read? s = some a → text a <+: s ∧ text a ≠ []

/-- The pieces into which a text is cut are taken by a loop. -/
theorem rounds_chunks {α : Type} {read? : List Char → Option α} {text : α → List Char}
    (h : Advances read? text) (s : List Char) :
    ∃ left, Rounds (fun s => (read? s).map text) s
      ((chunks read? (fun a => (text a).length) s).map text) left := by
  induction hn : s.length using Nat.strong_induction_on generalizing s with
  | _ n ih =>
      cases hread : read? s with
      | none => exact ⟨s, by rw [chunks_of_none hread]; exact .stop (by rw [hread]; rfl)⟩
      | some a =>
          obtain ⟨⟨more, rfl⟩, hne⟩ := h s a hread
          have hpos : 0 < (text a).length := List.length_pos_iff.2 hne
          rw [List.length_append] at hn
          obtain ⟨left, hlater⟩ := ih more.length (by omega) more rfl
          refine ⟨left, ?_⟩
          rw [chunks_of_some (List.append_ne_nil_of_left_ne_nil hne _) hread hpos, List.drop_left]
          exact .next (by rw [hread]; rfl) hne hlater

def single (p : Char → Bool) : List Char → Option (List Char)
  | [] => none
  | c :: _ => if p c then some [c] else none

theorem rounds_single (p : Char → Bool) (s : List Char) :
    Rounds (single p) s ((s.takeWhile p).map fun c => [c]) (s.dropWhile p) := by
  induction s with
  | nil => exact .stop rfl
  | cons c s ih =>
      cases hc : p c with
      | true =>
          rw [List.takeWhile_cons_of_pos hc, List.dropWhile_cons_of_pos hc]
          exact .next_single (if_pos hc) ih
      | false =>
          have hstop : ¬ p c = true := by simp [hc]
          rw [List.takeWhile_cons_of_neg hstop, List.dropWhile_cons_of_neg hstop]
          exact .stop (if_neg hstop)

theorem flatten_singles (s : List Char) : (s.map fun c => [c]).flatten = s := by
  induction s with
  | nil => rfl
  | cons c s ih => exact congrArg (c :: ·) ih

end MiniJava.Text
