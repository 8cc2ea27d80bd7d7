import MiniJava.Proofs.Grammar.Locality
import MiniJava.Proofs.Grammar.Source
import MiniJava.Proofs.Rendering.ProgramCompleteness
import MiniJava.Proofs.Rendering.StrictRendering
/-!
# Round trip

Parsing a rendering of a program yields the program, but for the places of its nodes, and
reports no syntax error.
-/

namespace MiniJava

def nowhere (_ : Location) : Location := ⟨.origin, ""⟩

/-- Equal but for the places of their nodes. -/
def Program.Same (p q : Program) : Prop := Alike nowhere p q

/-- Lexemes that a program is written as wherever its nodes are placed: with every semicolon,
with parentheses wherever they are needed, and with others or without. -/
def Program.Renders (p : Program) (ls : List Lexeme) : Prop :=
  ∃ placed ts, placed.Same p ∧ Rendering.Program false placed ts ∧ ls = ts.map (·.toLexeme)

theorem Program.renders_tokens {p : Program} (h : p.isStrict = true) :
    p.Renders (p.tokens.map (·.toLexeme)) := by
  obtain ⟨l, hp⟩ := p.written_of_isStrict h
  exact ⟨⟨l, p.classes⟩, p.tokens, rfl, hp, rfl⟩

namespace Grammar

open Parse Relocatable

theorem alike_of_lexemes {ts ts' : List Token}
    (h : ts.map (·.toLexeme) = ts'.map (·.toLexeme)) : Alike nowhere ts ts' := by
  have hmove : ∀ us : List Token,
      move nowhere us = (us.map (·.toLexeme)).map (Token.mk · (nowhere ⟨.origin, ""⟩)) := by
    intro us
    rw [List.map_map]
    rfl
  rw [Alike, hmove, hmove, h]

/-- Tokens whose lexemes are those of a program are read as the program. -/
theorem program_reads_lexemes {p : Program} {ts : List Token}
    (h : p.Renders (ts.map (·.toLexeme))) (finish : Location) :
    ∃ found, program.run finish ts = ⟨.ok found, .ofTokens ts, []⟩ ∧ found.Same p := by
  obtain ⟨placed, us, hsame, hrendering, hlexemes⟩ := h
  have hlength : ts.length = us.length := by
    have hmap := congrArg List.length hlexemes
    rwa [List.length_map, List.length_map] at hmap
  have hagree : Agree nowhere (us.length + 1) finish finish (us ++ []) ts := by
    refine ⟨?_, fun _ => rfl⟩
    rw [List.append_nil, List.take_of_length_le (by omega), List.take_of_length_le (by omega)]
    exact alike_of_lexemes hlexemes.symm
  have hprogram : Simulates nowhere 0 program program := simulates_program
  obtain ⟨ts', rest, found, rfl, hreads, htokens, hfound⟩ :=
    hprogram.reads (program_reads hrendering) (by rw [List.append_nil, hlength]; omega) hagree
  have hread : us.length = ts'.length := by
    have hmove := congrArg List.length htokens
    rwa [length_move, length_move] at hmove
  obtain rfl : rest = [] := by
    rw [List.length_append] at hlength
    exact List.length_eq_zero_iff.1 (by omega)
  rw [List.append_nil]
  refine ⟨found, ?_, hfound.symm.trans hsame⟩
  rwa [Reads, List.append_nil] at hreads

/-- A strict program can be written down, and any tokens, or any source, that it is written as
are read in full and without an error as the same program. -/
theorem strict_program_round_trip {p : Program} (h : p.isStrict = true) :
    p.Renders (p.tokens.map (·.toLexeme)) ∧
      (∀ finish ts, p.Renders (ts.map (·.toLexeme)) →
        ∃ found, program.run finish ts = ⟨.ok found, .ofTokens ts, []⟩ ∧ found.Same p) ∧
        ∀ source text, p.Renders ((sourceTokens source text).map (·.toLexeme)) →
          (parseText source text).1.Same p ∧ (parseText source text).2.hadError = false := by
  refine ⟨p.renders_tokens h, fun finish ts hts => program_reads_lexemes hts finish, ?_⟩
  intro source text htext
  obtain ⟨found, hrun, hsame⟩ := program_reads_lexemes htext (sourceEnd source text)
  obtain ⟨hvalue, herror⟩ := parseText_of_run hrun
  refine ⟨hvalue ▸ hsame, ?_⟩
  rw [Bool.eq_false_iff]
  exact fun htrue => herror.1 htrue (Trace.errors_ofTokens _)

def sumProgram : Program :=
  let l := nowhere ⟨.origin, ""⟩
  let n : Node := .reference "n" none l
  let one : Node := .literal (.integer 1) l
  let run : Node := .binary .member (.reference "s" none l) (.methodCall "run" [one] l) l
  let main : Node := .methodDeclaration ["public", "static"] "void" "main"
    [.variableDeclaration "String[]" "a" l]
    (.methodBody [.variableDeclaration "Sum" "s" l]
      [.binary .assign (.reference "s" none l) (.newObject "Sum" (.methodCall "Sum" [] l) l) l,
        .printStatement run l] none l) l
  let method : Node := .methodDeclaration ["public"] "int" "run" [.variableDeclaration "int" "n" l]
    (.methodBody []
      [.ifStatement (.unary .not (.binary .lessThan n one l) l) (.block [] l)
        (some (.binary .assign n (.binary .subtract n (.binary .add n one l) l) l)) l]
      (some (.returnStatement (.binary .multiply n (.binary .add n one l) l) l)) l) l
  ⟨l, [.mainClass "Main" main l,
    .classDeclaration "Sum" (some "Base") [.variableDeclaration "int[]" "seen" l] [method] l]⟩

def sumText : String :=
  "class Main \x7b public static void main(String[] a) \x7b Sum s; s = new Sum(); " ++
  "System.out.println(s.run(1)); \x7d \x7d class Sum extends Base \x7b int[] seen; " ++
  "public int run(int n) \x7b if (!(n < 1)) \x7b \x7d else n = n - (n + 1); " ++
  "return n * (n + 1); \x7d \x7d"

theorem strict_program_round_trip_sum :
    sumProgram.isStrict = true ∧ (parseText "Sum" sumText).1.Same sumProgram ∧
      (parseText "Sum" sumText).2.hadError = false := by
  have hstrict : sumProgram.isStrict = true := by decide +kernel
  have htext : (sourceTokens "Sum" sumText).map (·.toLexeme) =
      sumProgram.tokens.map (·.toLexeme) := by
    decide +kernel
  have hrenders := Program.renders_tokens hstrict
  rw [← htext] at hrenders
  exact ⟨hstrict, (strict_program_round_trip hstrict).2.2 "Sum" sumText hrenders⟩

end Grammar

end MiniJava
