import MiniJava.Cli.Options
import Mathlib.Data.List.Basic
/-!
# Command lines that are accepted

A command line asks for a run exactly if it has a source, perhaps an output after it, and the flag
at most once, with a lone pair of dashes before paths that begin with a dash.
-/

namespace MiniJava.Cli

/-- An argument that is a path wherever it stands: it does not begin with a dash, or is just a
dash. -/
def IsPath (argument : String) : Prop :=
  argument ≠ "" ∧ (argument.toList.head? = some '-' → argument = "-")

instance (argument : String) : Decidable (IsPath argument) :=
  inferInstanceAs (Decidable (_ ∧ (_ → _)))

/-- A command line gives some paths, and the flag or not.  After a lone pair of dashes there are
only paths. -/
inductive Gives : List String → Bool → List String → Prop
  | nil : Gives [] false []
  | path {argument : String} {paths arguments : List String} {tokens : Bool}
      (h : IsPath argument) (later : Gives paths tokens arguments) :
      Gives (argument :: paths) tokens (argument :: arguments)
  | flag {argument : String} {paths arguments : List String}
      (h : argument = "-t" ∨ argument = "--tokens") (later : Gives paths false arguments) :
      Gives paths true (argument :: arguments)
  | rest {paths : List String} (h : ∀ path ∈ paths, path ≠ "") : Gives paths false ("--" :: paths)

namespace Request

open Progress

variable {p q : Progress} {argument : String} {arguments paths : List String} {o : Options}

/-! ## One argument -/

theorem judge_path (h : IsPath argument) (p : Progress) :
    judge argument p = (p.addPath argument).map .inl := by
  unfold judge
  split
  · next hchars =>
    have hdash := h.2 (by rw [hchars]; rfl)
    rw [hdash] at hchars
    exact absurd hchars (by simp)
  · next hchars =>
    have hdash := h.2 (by rw [hchars]; rfl)
    rw [hdash] at hchars
    exact absurd hchars (by simp)
  · rfl

theorem judge_flag (h : argument = "-t" ∨ argument = "--tokens") (p : Progress) :
    judge argument p = p.addTokens.map .inl := by
  rcases h with rfl | rfl
  · show judgeLetters "-t" p ['t'] = _
    unfold judgeLetters
    cases p.addTokens <;> rfl
  · rfl

/-- Of the letters after a dash only the flag, alone and given once, leads on. -/
theorem judgeLetters_inl {c : Char} {letters : List Char}
    (h : judgeLetters argument p (c :: letters) = .ok (.inl q)) :
    c = 't' ∧ letters = [] ∧ p.addTokens = .ok q := by
  have hagain : ∀ {p : Progress} {d more}, p.tokens = true →
      judgeLetters argument p (d :: more) ≠ .ok (.inl q) := by
    intro p d more htokens hjudge
    unfold judgeLetters at hjudge
    split at hjudge
    · next heq => exact absurd heq (List.cons_ne_nil _ _)
    · simp [addTokens, htokens] at hjudge
    all_goals exact absurd hjudge nofun
  unfold judgeLetters at h
  split at h
  · next heq => exact absurd heq (List.cons_ne_nil _ _)
  · next more heq =>
    obtain ⟨rfl, rfl⟩ := List.cons.inj heq
    cases hadd : p.addTokens with
    | error e => simp [hadd] at h
    | ok p' =>
        rw [hadd] at h
        cases letters with
        | nil => exact ⟨rfl, rfl, congrArg Except.ok (Sum.inl.inj (Except.ok.inj h))⟩
        | cons d more =>
            have htokens : p'.tokens = true := by
              unfold addTokens at hadd
              split at hadd
              · exact absurd hadd nofun
              · rw [← Except.ok.inj hadd]
            exact absurd h (hagain htokens)
  all_goals exact absurd h nofun

theorem judgeLetters_ne_run (p : Progress) (letters : List Char) :
    judgeLetters argument p letters ≠ .ok (.inr (.run o)) := by
  induction letters generalizing p with
  | nil => exact nofun
  | cons c letters ih =>
      unfold judgeLetters
      split
      · exact nofun
      · next heq =>
        obtain ⟨rfl, rfl⟩ := List.cons.inj heq
        split
        · exact ih _
        · exact nofun
      all_goals exact nofun

theorem judgeLong_inl (h : judgeLong argument p = .ok (.inl q)) :
    argument = "--tokens" ∧ p.addTokens = .ok q := by
  unfold judgeLong at h
  dsimp only at h
  split at h
  · split at h
    · exact absurd h nofun
    · next hname =>
      split at h
      · next htokens =>
        rw [not_not] at hname
        refine ⟨hname ▸ htokens, ?_⟩
        cases hadd : p.addTokens with
        | error e => simp [hadd, Except.map] at h
        | ok p' => simpa [hadd, Except.map] using h
      · split at h <;> exact absurd h nofun
  · exact absurd h nofun

theorem judgeLong_ne_run : judgeLong argument p ≠ .ok (.inr (.run o)) := by
  unfold judgeLong
  dsimp only
  split
  · split
    · exact nofun
    · split
      · cases p.addTokens <;> exact nofun
      · split <;> exact nofun
  · exact nofun

/-- An argument that leads on is a path or the flag. -/
theorem judge_inl (h : judge argument p = .ok (.inl q)) :
    IsPath argument ∧ p.addPath argument = .ok q ∨
      (argument = "-t" ∨ argument = "--tokens") ∧ p.addTokens = .ok q := by
  unfold judge at h
  split at h
  · obtain ⟨hflag, hadd⟩ := judgeLong_inl h
    exact .inr ⟨.inr hflag, hadd⟩
  · next hchars =>
    obtain ⟨rfl, rfl, hadd⟩ := judgeLetters_inl h
    exact .inr ⟨.inl (String.toList_injective hchars), hadd⟩
  · next hlong hletters =>
    left
    have hadd : p.addPath argument = .ok q := by
      cases hadd : p.addPath argument with
      | error e => simp [hadd, Except.map] at h
      | ok p' => simpa [hadd, Except.map] using h
    refine ⟨⟨?_, fun hdash => ?_⟩, hadd⟩
    · rintro rfl
      exact absurd hadd nofun
    · cases hchars : argument.toList with
      | nil => simp [hchars] at hdash
      | cons c rest =>
          obtain rfl : c = '-' := by simpa [hchars] using hdash
          cases rest with
          | nil => exact String.toList_injective hchars
          | cons d rest => exact absurd hchars (hletters d rest)

theorem judge_ne_run : judge argument p ≠ .ok (.inr (.run o)) := by
  unfold judge
  split
  · exact judgeLong_ne_run
  · exact judgeLetters_ne_run p _
  · cases p.addPath argument <;> exact nofun

/-! ## All arguments -/

theorem addPath_eq_ok_iff : p.addPath argument = .ok q ↔
    argument ≠ "" ∧ p.paths.length < 2 ∧ q = { p with paths := p.paths ++ [argument] } := by
  unfold addPath
  split
  · next h => simp [h]
  · next hne =>
    split
    · next hfull => simp; omega
    · next hroom => simp [hne, Nat.not_le.1 hroom, eq_comm]

theorem addTokens_eq_ok_iff :
    p.addTokens = .ok q ↔ p.tokens = false ∧ q = { p with tokens := true } := by
  unfold addTokens
  split
  · next h => simp [h]
  · next h => simp [h, eq_comm]

theorem close_eq_run_iff (h : p.paths.length ≤ 2) : p.close = .ok (.run o) ↔
    p.paths = o.source :: o.output.toList ∧ o.tokens = p.tokens := by
  obtain ⟨source, output, tokens⟩ := o
  obtain ⟨paths, flag⟩ := p
  match paths with
  | [] => simp [close]
  | [first] =>
      cases output <;> simp [close, eq_comm]
  | [first, second] =>
      cases output <;> simp [close, eq_comm, and_assoc]
  | _ :: _ :: _ :: _ => simp at h

theorem foldlM_addPath_eq_ok_iff (h : p.paths.length ≤ 2) :
    paths.foldlM addPath p = .ok q ↔ (∀ path ∈ paths, path ≠ "") ∧
      (p.paths ++ paths).length ≤ 2 ∧ q = { p with paths := p.paths ++ paths } := by
  induction paths generalizing p with
  | nil => simp [pure, Except.pure, h, eq_comm]
  | cons path paths ih =>
      rw [List.foldlM_cons]
      by_cases hroom : path ≠ "" ∧ p.paths.length < 2
      · have hadd := addPath_eq_ok_iff.2 ⟨hroom.1, hroom.2, rfl⟩
        rw [hadd]
        show paths.foldlM addPath _ = _ ↔ _
        rw [ih (by simp; omega)]
        simp [hroom.1]
      · have hfail : ∀ q, p.addPath path ≠ .ok q := fun q hadd =>
          hroom ⟨(addPath_eq_ok_iff.1 hadd).1, (addPath_eq_ok_iff.1 hadd).2.1⟩
        refine iff_of_false ?_ ?_
        · cases hadd : p.addPath path with
          | ok q => exact absurd hadd (hfail q)
          | error e => exact nofun
        · rintro ⟨hpaths, hlength, -⟩
          refine hroom ⟨hpaths path (List.mem_cons_self ..), ?_⟩
          rw [List.length_append, List.length_cons] at hlength
          omega

theorem ofArguments_rest (p : Progress) (paths : List String) :
    ofArguments p ("--" :: paths) =
      match paths.foldlM addPath p with
      | .ok p => p.close
      | .error e => .error e := rfl

theorem ofArguments_cons (h : argument ≠ "--") (p : Progress) (arguments : List String) :
    ofArguments p (argument :: arguments) =
      match judge argument p with
      | .ok (.inl p) => ofArguments p arguments
      | .ok (.inr request) => .ok request
      | .error e => .error e := by
  conv_lhs => unfold ofArguments
  split
  · next heq => exact absurd heq (List.cons_ne_nil _ _)
  · next heq => exact absurd (List.cons.inj heq).1 h
  · next heq =>
    obtain ⟨rfl, rfl⟩ := List.cons.inj heq
    rfl

theorem not_isPath_dashes : ¬ IsPath "--" := by
  rintro ⟨-, h⟩
  exact absurd (h rfl) (by decide)

/-- From what the arguments so far say: a run is asked for exactly if the others give the paths that
are missing, and the flag if it has not been given. -/
theorem ofArguments_eq_run_iff (hp : p.paths.length ≤ 2) : ofArguments p arguments = .ok (.run o) ↔
    ∃ paths tokens, Gives paths tokens arguments ∧
      p.paths ++ paths = o.source :: o.output.toList ∧ (p.tokens = true → tokens = false) ∧
        o.tokens = (p.tokens || tokens) := by
  constructor
  · intro h
    induction arguments generalizing p with
    | nil =>
        obtain ⟨hpaths, htokens⟩ := (close_eq_run_iff hp).1 h
        exact ⟨[], false, .nil, by simpa using hpaths, fun _ => rfl, by simpa using htokens⟩
    | cons argument arguments ih =>
        by_cases hrest : argument = "--"
        · subst hrest
          rw [ofArguments_rest] at h
          cases hfold : arguments.foldlM addPath p with
          | error e => simp [hfold] at h
          | ok q =>
              rw [hfold] at h
              obtain ⟨hne, hlength, rfl⟩ := (foldlM_addPath_eq_ok_iff hp).1 hfold
              obtain ⟨hpaths, htokens⟩ := (close_eq_run_iff hlength).1 h
              exact ⟨arguments, false, .rest hne, hpaths, fun _ => rfl, by simpa using htokens⟩
        · rw [ofArguments_cons hrest] at h
          split at h
          · next q hjudge =>
            rcases judge_inl hjudge with ⟨hpath, hadd⟩ | ⟨hflag, hadd⟩
            · obtain ⟨-, hroom, rfl⟩ := addPath_eq_ok_iff.1 hadd
              obtain ⟨paths, tokens, hgives, hpaths, honce, htokens⟩ := ih (by simp; omega) h
              exact ⟨argument :: paths, tokens, .path hpath hgives, by simpa using hpaths, honce,
                htokens⟩
            · obtain ⟨hnone, rfl⟩ := addTokens_eq_ok_iff.1 hadd
              obtain ⟨paths, tokens, hgives, hpaths, honce, htokens⟩ :=
                ih (p := { p with tokens := true }) hp h
              obtain rfl := honce rfl
              exact ⟨paths, true, .flag hflag hgives, hpaths, by simp [hnone],
                by simpa using htokens⟩
          · next request hjudge =>
            obtain rfl := Except.ok.inj h
            exact absurd hjudge judge_ne_run
          · exact absurd h nofun
  · rintro ⟨paths, tokens, hgives, hpaths, honce, htokens⟩
    induction hgives generalizing p with
    | nil =>
        exact (close_eq_run_iff hp).2 ⟨by simpa using hpaths, by simpa using htokens⟩
    | @path argument paths arguments tokens h later ih =>
        have hne : argument ≠ "--" := by
          rintro rfl
          exact not_isPath_dashes h
        have hroom : p.paths.length < 2 := by
          have hlength := congrArg List.length hpaths
          cases ho : o.output <;> simp [ho] at hlength <;> omega
        rw [ofArguments_cons hne, judge_path h, addPath_eq_ok_iff.2 ⟨h.1, hroom, rfl⟩]
        exact ih (by simp; omega) (by simpa using hpaths) honce htokens
    | @flag argument paths arguments h later ih =>
        have hne : argument ≠ "--" := by
          rcases h with rfl | rfl <;> decide
        have hnone : p.tokens = false := by
          cases hp : p.tokens with
          | false => rfl
          | true => exact absurd (honce hp) nofun
        rw [ofArguments_cons hne, judge_flag h, addTokens_eq_ok_iff.2 ⟨hnone, rfl⟩]
        exact ih hp hpaths (fun _ => rfl) (by simpa using htokens)
    | @rest paths h =>
        have hlength : (p.paths ++ paths).length ≤ 2 := by
          rw [hpaths]
          cases o.output <;> simp
        rw [ofArguments_rest, (foldlM_addPath_eq_ok_iff hp).2 ⟨h, hlength, rfl⟩]
        exact (close_eq_run_iff hlength).2 ⟨hpaths, by simpa using htokens⟩

theorem parse_eq_run_iff :
    parse arguments = .ok (.run o) ↔ Gives (o.source :: o.output.toList) o.tokens arguments := by
  rw [parse, ofArguments_eq_run_iff (by simp)]
  simp only [List.nil_append, Bool.false_or]
  constructor
  · rintro ⟨paths, tokens, hgives, rfl, -, htokens⟩
    rwa [htokens]
  · exact fun h => ⟨_, _, h, rfl, nofun, rfl⟩

end Request

end MiniJava.Cli
