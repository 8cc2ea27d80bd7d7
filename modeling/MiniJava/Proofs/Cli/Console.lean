import MiniJava.Cli.Console
import Mathlib.Data.List.Basic
/-!
# What consoles take

Texts that are put out one after another are all shown, or up to somewhere in the first of them that
the console does not take in full.
-/

namespace MiniJava.Cli.Console

variable {σ : Type} {console : Console (StateM σ)} {texts : List String} {text : String} {s : σ}

/-- Texts are taken in full, one after another. -/
def Takes (console : Console (StateM σ)) : List String → σ → Prop
  | [], _ => True
  | text :: rest, s =>
    ((console.put text).run s).1 = none ∧ Takes console rest ((console.put text).run s).2

theorem takes_of_put (h : ∀ text s, ((console.put text).run s).1 = none) (texts : List String)
    (s : σ) : console.Takes texts s := by
  induction texts generalizing s with
  | nil => exact trivial
  | cons text rest ih => exact ⟨h text s, ih _⟩

theorem part_isPrefix (i : Interruption) (text : String) : (i.part text).toList <+: text.toList := by
  rw [Interruption.part, String.toList_ofList]
  exact List.take_prefix ..

theorem run_bind {α β : Type} (x : StateM σ α) (f : α → StateM σ β) (s : σ) :
    (x >>= f).run s = (f (x.run s).1).run (x.run s).2 := rfl

theorem putAll_cons_of_none (h : ((console.put text).run s).1 = none) (rest : List String) :
    ((console.putAll (text :: rest)).run s).1 =
      let (taken, failed) := ((console.putAll rest).run ((console.put text).run s).2).1
      (text ++ taken, failed) := by
  rw [putAll, run_bind, h]
  rfl

theorem putAll_cons_of_some {i : Interruption} (h : ((console.put text).run s).1 = some i)
    (rest : List String) :
    ((console.putAll (text :: rest)).run s).1 = (i.part text, some i.cause) := by
  rw [putAll, run_bind, h]
  rfl

theorem putAll_of_takes (h : console.Takes texts s) :
    ((console.putAll texts).run s).1 = (String.join texts, none) := by
  induction texts generalizing s with
  | nil => rfl
  | cons text rest ih =>
      rw [putAll_cons_of_none h.1, ih h.2, String.join_cons]

/-- A console that does not take all texts takes those before one that it only takes in part. -/
theorem putAll_of_not_takes (h : ¬ console.Takes texts s) :
    ∃ before text rest part cause, texts = before ++ text :: rest ∧ console.Takes before s ∧
      ¬ console.Takes (before ++ [text]) s ∧ part.toList <+: text.toList ∧
      ((console.putAll texts).run s).1 = (String.join before ++ part, some cause) := by
  induction texts generalizing s with
  | nil => exact absurd trivial h
  | cons text rest ih =>
      cases hput : ((console.put text).run s).1 with
      | some i =>
          refine ⟨[], text, rest, i.part text, i.cause, rfl, trivial, ?_, part_isPrefix i text, ?_⟩
          · intro htakes
            exact absurd (hput.symm.trans htakes.1) (Option.some_ne_none _)
          · rw [putAll_cons_of_some hput]
            simp
      | none =>
          obtain ⟨before, text', rest', part, cause, rfl, hbefore, hnot, hpart, hrun⟩ :=
            ih fun hrest => h ⟨hput, hrest⟩
          refine ⟨text :: before, text', rest', part, cause, rfl, ⟨hput, hbefore⟩,
            fun htakes => hnot htakes.2, hpart, ?_⟩
          rw [putAll_cons_of_none hput, hrun, String.join_cons, String.append_assoc]

/-- What is shown of a text is a beginning of it, and all of it if the console takes it. -/
structure Shows (console : Console (StateM σ)) (s : σ) (text shown : String) : Prop where
  beginning : shown.toList <+: text.toList
  whole : console.Takes [text] s → shown = text

theorem shows_attempt (console : Console (StateM σ)) (text : String) (s : σ) :
    console.Shows s text ((console.attempt text).run s).1 := by
  have hattempt : ((console.attempt text).run s).1 = ((console.putAll [text]).run s).1.1 := rfl
  rw [hattempt]
  cases hput : ((console.put text).run s).1 with
  | none =>
      have htakes : console.Takes [text] s := ⟨hput, trivial⟩
      have hall : String.join [text] = text := by simp [String.join]
      rw [putAll_of_takes htakes, hall]
      exact ⟨List.prefix_rfl, fun _ => rfl⟩
  | some i =>
      rw [putAll_cons_of_some hput]
      exact ⟨part_isPrefix i text, fun htakes =>
        absurd (hput.symm.trans htakes.1) (Option.some_ne_none _)⟩

theorem line_of_plain (h : console.isTerminal = false) :
    console.line = fun d => d.text ++ "\n" := by
  funext d
  simp [line, h]

theorem line_of_terminal (h : console.isTerminal = true) :
    console.line = fun d => d.coloured console.bold ++ "\n" := by
  funext d
  simp [line, h]

/-! ## Beside another state -/

section

variable {δ α β : Type}

theorem run_run_bind (x : StateT δ (StateM σ) α) (f : α → StateT δ (StateM σ) β) (d : δ) (s : σ) :
    ((x >>= f).run d).run s =
      ((f ((x.run d).run s).1.1).run ((x.run d).run s).1.2).run ((x.run d).run s).2 := rfl

theorem line_beside (console : Console (StateM σ)) :
    (console.beside : Console (StateT δ (StateM σ))).line = console.line := rfl

theorem run_put_beside (console : Console (StateM σ)) (text : String) (d : δ) (s : σ) :
    ((console.beside.put text).run d).run s =
      ((((console.put text).run s).1, d), ((console.put text).run s).2) := rfl

theorem run_putAll_beside (console : Console (StateM σ)) (texts : List String) (d : δ) (s : σ) :
    ((console.beside.putAll texts).run d).run s =
      ((((console.putAll texts).run s).1, d), ((console.putAll texts).run s).2) := by
  induction texts generalizing s with
  | nil => rfl
  | cons text rest ih =>
      rw [putAll, run_run_bind, run_put_beside, putAll, run_bind]
      cases ((console.put text).run s).1 with
      | some i => rfl
      | none =>
          dsimp only
          rw [run_run_bind, ih]
          rfl

theorem run_attempt_beside (console : Console (StateM σ)) (text : String) (d : δ) (s : σ) :
    ((console.beside.attempt text).run d).run s =
      ((((console.attempt text).run s).1, d), ((console.attempt text).run s).2) := by
  rw [attempt, run_run_bind, run_putAll_beside]
  rfl

end

end MiniJava.Cli.Console
