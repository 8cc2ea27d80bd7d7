import MiniJava.Cli.Run
import MiniJava.Proofs.Cli.Arguments
import MiniJava.Proofs.Cli.Console
import MiniJava.Proofs.Cli.Disk
import MiniJava.Proofs.Grammar.Source
import MiniJava.Proofs.Lexical.Spacing
/-!
# Runs

A run changes one file or none.  If its source can not be read, or its output not be written, it
fails and leaves the disk as it was; otherwise it writes what the source had before to its output,
in the form that is asked for, and shows the diagnostics, none of which make it fail.  All that can
fail from then on is the console.
-/

namespace MiniJava

namespace Cli

open Lexical Grammar

/-- What is written for a source text, and the diagnostics that are found on the way: the listings
of the tokens up to the first one for the end, or the laid out text of the program. -/
inductive Yields (source text : String) : Bool → String → List Diagnostic → Prop
  | tokens {n : Nat} (words : ∀ i < n, (sourceToken source text i).isEndOfFile = false)
      (last : (sourceToken source text n).isEndOfFile = true) :
      Yields source text true
        ("\n".intercalate
          ((List.range (n + 1)).map fun i => (sourceToken source text i).listing) ++ "\n")
        ((TokenStream.ofText source text).skip (n + 1)).log.entries
  | tree :
      Yields source text false
        (String.ofList (Json.layout (parseText source text).1.display.toList) ++ "\n")
        (parseText source text).2.stream.log.entries

theorem listTokens_ofText (source text : String) :
    listTokens (.ofText source text) =
      ("\n".intercalate ((List.range ((sourceTokens source text).length + 1)).map
          fun i => (sourceToken source text i).listing),
        (TokenStream.ofText source text).skip ((sourceTokens source text).length + 1)) := by
  have hlength : (sourceTokens source text).length =
      (TokenStream.ofText source text).ahead.length := List.length_map _
  have hlast : (TokenStream.ofText source text).drain.current =
      .endOfFile (sourceEnd source text) := by
    show sourceToken source text (TokenStream.ofText source text).ahead.length = _
    rw [sourceToken_eq, ← hlength, List.drop_length]
    rfl
  have htokens : (TokenStream.ofText source text).remaining ++
      [(TokenStream.ofText source text).drain.current] =
        (List.range ((sourceTokens source text).length + 1)).map (sourceToken source text) := by
    rw [hlast, map_sourceToken]
    rfl
  rw [listTokens, htokens, List.map_map, hlength]
  rfl

theorem Options.yields_result (o : Options) (text : String) :
    Yields o.source text o.tokens (o.result text).1 (o.result text).2.entries := by
  unfold result
  cases o.tokens with
  | true =>
      have hend := TokenStream.isEndOfFile_current_skip o.source text
      have hwords : ∀ i < (sourceTokens o.source text).length,
          (sourceToken o.source text i).isEndOfFile = false := fun i hi =>
        (hend i).trans (decide_eq_false (Nat.not_le.2 hi))
      have hlast : (sourceToken o.source text (sourceTokens o.source text).length).isEndOfFile =
          true := (hend _).trans (decide_eq_true (Nat.le_refl _))
      show Yields o.source text true ((listTokens (.ofText o.source text)).1 ++ "\n")
        (listTokens (.ofText o.source text)).2.log.entries
      rw [listTokens_ofText]
      exact .tokens hwords hlast
  | false =>
      have hdisplay : (parseText o.source text).1.display.toList =
          (parseText o.source text).1.toJson.compact := String.toList_ofList
      have htree : Yields o.source text false _ _ := .tree
      rw [hdisplay] at htree
      exact htree

/-! ## Runs on a disk and a console -/

section

variable {σ : Type}

/-- A run that shows nothing but an error. -/
inductive Fails (console : Console (StateM σ)) (s : σ) (message : String) : Report → Prop
  | error {shown : String} (h : console.Shows s (errorText message) shown) :
      Fails console s message ⟨1, "", shown⟩

/-- A run that shows lines up to somewhere in one that the console does not take in full, and then
an error. -/
inductive BreaksOff (console : Console (StateM σ)) (s : σ) (lines : List String) : Report → Prop
  | within {before rest : List String} {line part shown : String} {cause : FileError} {s' : σ}
      (split : lines = before ++ line :: rest) (earlier : console.Takes before s)
      (stopped : ¬ console.Takes (before ++ [line]) s) (beginning : part.toList <+: line.toList)
      (error : console.Shows s' (errorText cause.message) shown) :
      BreaksOff console s lines ⟨1, "", String.join before ++ part ++ shown⟩

variable {console : Console (StateM σ)} {s : σ} {o : Options} {d after : Disk} {text : String}
  {cause : FileError}

theorem Disk.run_read_filesBeside (d : Disk) (path : String) (s : σ) :
    (((filesBeside (StateM σ)).read path).run d).run s = ((d.read path, d), s) := rfl

theorem Disk.run_write_filesBeside (d : Disk) (path text : String) (s : σ) :
    (((filesBeside (StateM σ)).write path text).run d).run s =
      match d.write path text with
      | .ok after => ((.ok (), after), s)
      | .error cause => ((.error cause, d), s) := by
  rw [filesBeside, Console.run_run_bind]
  change ((match d.write path text with
    | .ok after => _
    | .error cause => _ : StateT Disk (StateM σ) (Except FileError Unit)).run d).run s = _
  cases d.write path text <;> rfl

theorem run_fail (console : Console (StateM σ)) (shown message : String) (d : Disk) (s : σ) :
    (((fail console.beside shown message).run d).run s).1 =
      (⟨1, "", shown ++ ((console.attempt (errorText message)).run s).1⟩, d) := by
  rw [fail, Console.run_run_bind, Console.run_attempt_beside]
  rfl

/-- An error with nothing before it. -/
theorem exists_run_fail (console : Console (StateM σ)) (message : String) (d : Disk) (s : σ) :
    ∃ report, (((fail console.beside "" message).run d).run s).1 = (report, d) ∧
      Fails console s message report := by
  rw [run_fail, String.empty_append]
  exact ⟨_, rfl, .error (console.shows_attempt _ s)⟩

theorem Options.run_of_unreadable (h : d.read o.source = .error cause) :
    ∃ report, (((o.run (Disk.filesBeside (StateM σ)) console.beside).run d).run s).1 =
      (report, d) ∧ Fails console s (unreadable o.source cause) report := by
  rw [run, Console.run_run_bind, Disk.run_read_filesBeside, h]
  exact exists_run_fail ..

theorem Options.run_of_unwritable (hread : d.read o.source = .ok text)
    (hwrite : d.write o.target (o.result text).1 = .error cause) :
    ∃ report, (((o.run (Disk.filesBeside (StateM σ)) console.beside).run d).run s).1 =
      (report, d) ∧ Fails console s (unwritable o.target cause) report := by
  rw [run, Console.run_run_bind, Disk.run_read_filesBeside, hread]
  dsimp only
  rw [Console.run_run_bind, Disk.run_write_filesBeside, hwrite]
  exact exists_run_fail ..

theorem Options.run_eq_of_written (hread : d.read o.source = .ok text)
    (hwrite : d.write o.target (o.result text).1 = .ok after) :
    (((o.run (Disk.filesBeside (StateM σ)) console.beside).run d).run s).1 =
      match (console.putAll ((o.result text).2.entries.map console.line)).run s with
      | ((taken, none), _) => (⟨0, "", taken⟩, after)
      | ((taken, some cause), s') =>
          (⟨1, "", taken ++ ((console.attempt (errorText cause.message)).run s').1⟩, after) := by
  rw [run, Console.run_run_bind, Disk.run_read_filesBeside, hread]
  dsimp only
  rw [Console.run_run_bind, Disk.run_write_filesBeside, hwrite]
  dsimp only
  rw [Console.run_run_bind, Console.line_beside, Console.run_putAll_beside]
  generalize (console.putAll _).run s = shown
  obtain ⟨⟨taken, failed⟩, s'⟩ := shown
  cases failed with
  | none => rfl
  | some cause => exact run_fail ..

/-- Once the output is written, the run goes by what the console takes. -/
theorem Options.run_of_written (hread : d.read o.source = .ok text)
    (hwrite : d.write o.target (o.result text).1 = .ok after) :
    ∃ report, (((o.run (Disk.filesBeside (StateM σ)) console.beside).run d).run s).1 =
      (report, after) ∧
      let lines := (o.result text).2.entries.map console.line
      (console.Takes lines s → report = ⟨0, "", String.join lines⟩) ∧
        (¬ console.Takes lines s → BreaksOff console s lines report) := by
  rw [run_eq_of_written hread hwrite]
  by_cases htakes : console.Takes ((o.result text).2.entries.map console.line) s
  · have hall := Console.putAll_of_takes htakes
    generalize (console.putAll _).run s = shown at hall ⊢
    obtain ⟨shown, s'⟩ := shown
    obtain rfl := hall
    exact ⟨_, rfl, fun _ => rfl, fun hnot => absurd htakes hnot⟩
  · obtain ⟨before, line, rest, part, cause, hlines, hbefore, hstop, hpart, hbroken⟩ :=
      Console.putAll_of_not_takes htakes
    generalize (console.putAll _).run s = shown at hbroken ⊢
    obtain ⟨shown, s'⟩ := shown
    obtain rfl := hbroken
    exact ⟨_, rfl, fun hall => absurd hall htakes, fun _ =>
      .within hlines hbefore hstop hpart (console.shows_attempt _ s')⟩

end

/-- The console takes everything. -/
example :
    (((Request.run ⟨"a.mj", none, true⟩).carryOut Disk.asFiles).run
      ⟨[(["a.mj"], "@".toUTF8)]⟩).1 = ⟨0, "", "Token Error: a.mj:1:1: Unknown character @\n"⟩ := by
  decide +kernel

/-- The console is a full device. -/
example :
    let full : Console (StateM Unit) := ⟨false, fun _ text => text,
      fun _ => pure (some ⟨0, .other "No space left on device (os error 28)"⟩)⟩
    (((((Request.run ⟨"a.mj", none, true⟩).carryOut (Disk.filesBeside (StateM Unit))
      full.beside).run ⟨[(["a.mj"], "@".toUTF8)]⟩).run ()).1).1 = ⟨1, "", ""⟩ := by
  decide +kernel

end Cli

end MiniJava
