import MiniJava.Proofs.Cli.Run
import MiniJava.Proofs.Grammar.Quotation
/-!
# Lines of the output

A listing has the lines of its tokens, one token after another, and what is shown has the lines of
the diagnostics.  Each of these is one line as long as it has no newline in it, and it has as many
more lines as the source name has newlines, and the word or the message.
-/

namespace MiniJava

/-- The lines of a text: what stands before, between and after its newlines. -/
def lines (s : String) : List String := (s.toList.splitOn '\n').map String.ofList

theorem length_splitOn (cs : List Char) : (cs.splitOn '\n').length = 1 + cs.count '\n' := by
  induction cs with
  | nil => rfl
  | cons c cs ih =>
      rw [List.splitOn_eq_splitOnP, List.splitOnP_cons_eq_if_modifyHead,
        ← List.splitOn_eq_splitOnP]
      by_cases hc : c = '\n'
      · rw [if_pos (by simp [hc]), List.length_cons, ih, hc, List.count_cons_self]
        omega
      · rw [if_neg (by simp [hc]), List.length_modifyHead, ih, List.count_cons_of_ne hc]

theorem length_lines (s : String) : (lines s).length = 1 + newlines s := by
  rw [lines, List.length_map, length_splitOn, newlines]

theorem lines_append (s t : String) : lines (s ++ "\n" ++ t) = lines s ++ lines t := by
  have hsplit : (s ++ "\n" ++ t).toList = s.toList ++ '\n' :: t.toList := by
    simp [String.toList_append]
  rw [lines, hsplit, List.splitOn_eq_splitOnP, List.splitOnP_append_cons _ _ (by decide),
    List.map_append]
  rfl

theorem lines_of_newlines {s : String} (h : newlines s = 0) : lines s = [s] := by
  have hnone : ∀ c ∈ s.toList, (c == '\n') = false := by
    intro c hc
    rw [beq_eq_false_iff_ne]
    rintro rfl
    exact List.count_eq_zero.1 h hc
  rw [lines, List.splitOn_eq_splitOnP, List.splitOnP_eq_singleton hnone, List.map_singleton,
    String.ofList_toList]

/-- Texts with a newline after each have the lines of the texts, and nothing after the last one. -/
theorem lines_join (texts : List String) :
    lines (String.join (texts.map (· ++ "\n"))) = texts.flatMap lines ++ [""] := by
  induction texts with
  | nil => rfl
  | cons s texts ih =>
      rw [List.map_cons, String.join_cons, lines_append, ih, List.flatMap_cons, List.append_assoc]

theorem intercalate_newline {texts : List String} (h : texts ≠ []) :
    "\n".intercalate texts ++ "\n" = String.join (texts.map (· ++ "\n")) := by
  induction texts with
  | nil => exact absurd rfl h
  | cons s texts ih =>
      cases texts with
      | nil => simp [String.join]
      | cons t texts =>
          rw [String.intercalate_cons_cons, String.append_assoc, ih (List.cons_ne_nil _ _)]
          exact String.join_cons.symm

namespace Cli

open Lexical Grammar

namespace Yields

variable {source text written : String} {tokens : Bool} {found : List Diagnostic}

/-- What is found names the source and quotes words of it. -/
theorem quotes (h : Yields source text tokens written found) :
    ∀ d ∈ found, d.location.source = source ∧ Quotes source text d := by
  cases h with
  | tokens => exact fun d hd => quotes_of_scan (mem_log_skip hd)
  | tree => exact fun d hd => quotes_of_parse hd

theorem lines_listing (h : Yields source text true written found) :
    ∃ n, (∀ i < n, (sourceToken source text i).isEndOfFile = false) ∧
      (sourceToken source text n).isEndOfFile = true ∧
      lines written = ((List.range (n + 1)).map (sourceToken source text)).flatMap
        (lines ·.listing) ++ [""] := by
  cases h with
  | @tokens n words last =>
      refine ⟨n, words, last, ?_⟩
      rw [intercalate_newline (by simp), lines_join, List.flatMap_map, List.flatMap_map]

end Yields

/-- The listing has the lines of the tokens up to the end, one token after another.  A token has one
line, and one more for each newline in the source name and in its word, which has none unless it is
a character or a string.  What is shown has the lines of the diagnostics, one after another.  A
diagnostic has one line, and one more for each newline in the source name and in its message, which
has none unless it tells of a newline in place of an exponent or quotes a character or a string. -/
theorem output_by_lines (o : Options) (text : String) :
    let (written, log) := o.result text
    (o.tokens = true → ∃ n, (∀ i < n, (sourceToken o.source text i).isEndOfFile = false) ∧
      (sourceToken o.source text n).isEndOfFile = true ∧
      let tokens := (List.range (n + 1)).map (sourceToken o.source text)
      lines written = tokens.flatMap (lines ·.listing) ++ [""] ∧
      ∀ t ∈ tokens, (lines t.listing).length = 1 + (newlines o.source + newlines t.text) ∧
        (newlines o.source + newlines t.text = 0 → lines t.listing = [t.listing]) ∧
        (newlines t.text ≠ 0 → t.kind = .charLiteral ∨ t.kind = .stringLiteral)) ∧
    lines (shown log) = log.entries.flatMap (lines ·.text) ++ [""] ∧
    ∀ d ∈ log.entries, (lines d.text).length = 1 + (newlines o.source + newlines d.message) ∧
      (newlines o.source + newlines d.message = 0 → lines d.text = [d.text]) ∧
      Quotes o.source text d := by
  have hyields := o.yields_result text
  generalize o.result text = result at hyields ⊢
  obtain ⟨written, log⟩ := result
  refine ⟨fun htokens => ?_, ?_, fun d hd => ?_⟩
  · rw [htokens] at hyields
    obtain ⟨n, hwords, hlast, hlines⟩ := hyields.lines_listing
    refine ⟨n, hwords, hlast, hlines, List.forall_mem_map.2 fun i _ => ?_⟩
    obtain ⟨hunbroken, hsource, -⟩ := sourceToken_unbroken o.source text i
    have hcount := newlines_listing (sourceToken o.source text i)
    rw [hsource] at hcount
    rw [length_lines, hcount]
    exact ⟨rfl, fun hnone => lines_of_newlines (hcount.trans hnone), hunbroken⟩
  · have hjoin := lines_join (log.entries.map (·.text))
    rw [List.map_map, List.flatMap_map] at hjoin
    exact hjoin
  · obtain ⟨hsource, hquotes⟩ := hyields.quotes d hd
    have hcount := newlines_diagnostic d
    rw [hsource] at hcount
    rw [length_lines, hcount]
    exact ⟨rfl, fun hnone => lines_of_newlines (hcount.trans hnone), hquotes⟩

/-- A string that goes on over a line, and an exponent that a newline cuts short. -/
def brokenLines : String := "\"a\nb\" 1e\n"

/-- Two tokens are listed on three lines, and one diagnostic is shown on two. -/
theorem broken_lines :
    ((List.range 2).map (sourceToken "a.mj" brokenLines)).map (·.isEndOfFile) = [false, true] ∧
    lines ((⟨"a.mj", none, true⟩ : Options).result brokenLines).1 =
      ["a.mj:1:1:\tstring literal\ta", "b\t\t-1", "a.mj:3:1:\teof\tEND_OF_FILE\t\t-1", ""] ∧
    ((⟨"a.mj", none, true⟩ : Options).result brokenLines).2.size = 1 ∧
    (lines (shown ((⟨"a.mj", none, true⟩ : Options).result brokenLines).2)).length = 3 := by
  refine ⟨?_, ?_, ?_, ?_⟩
  · decide +kernel
  · decide +kernel
  · decide +kernel
  · decide +kernel

end Cli

end MiniJava
