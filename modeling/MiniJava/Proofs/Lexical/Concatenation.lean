import MiniJava.Proofs.Lexical.Newline
import MiniJava.Proofs.Tree.Relocation
/-!
# Scanning a text after a text

If nothing is left open at the end of a text, a newline and another text after it are scanned as if
the other text stood alone, except that it stands lower.
-/

namespace MiniJava

open Relocatable Lexical

/-! ## Standing lower -/

namespace Point

def down (k : Nat) (p : Point) : Point := ⟨p.line + k, p.column⟩

theorem down_step (k : Nat) (p : Point) (c : Char) : (p.down k).step c = (p.step c).down k := by
  unfold step
  split
  · simp only [down, Nat.add_right_comm]
  · rfl

theorem down_after (k : Nat) (p : Point) (text : List Char) :
    (p.down k).after text = (p.after text).down k := by
  induction text generalizing p with
  | nil => rfl
  | cons c text ih => rw [after_cons, after_cons, down_step, ih]

theorem origin_after_newline (text : List Char) :
    (origin.after text).step '\n' = origin.down (1 + text.count '\n') := by
  rw [step, if_pos rfl, origin_after, down, origin, Nat.add_comm 1 (1 + _)]

end Point

def Location.down (k : Nat) (l : Location) : Location := ⟨l.toPoint.down k, l.source⟩

namespace Relocatable

instance : Relocatable Diagnostic := ⟨fun φ d => { d with location := φ d.location }⟩
instance : Relocatable Reading := ⟨fun φ r => ⟨move φ r.diagnostics, move φ r.token⟩⟩
instance : Relocatable Readings := ⟨fun φ rs => ⟨move φ rs.words, move φ rs.ending⟩⟩

end Relocatable

namespace Lexical

namespace Readings

variable (source : String) (p : Point) (gs : List Segment)

theorem move_precededBy (φ : Location → Location) (found : List Diagnostic) (rs : Readings) :
    move φ (rs.precededBy found) = (move φ rs).precededBy (move φ found) := by
  obtain ⟨words, ending⟩ := rs
  cases words with
  | nil => simp [precededBy, move]
  | cons r rest => simp [precededBy, move]

/-- What is read from a lower point on stands that much lower. -/
theorem ofSegments_down (k : Nat) :
    ofSegments source (p.down k) gs = move (Location.down k) (ofSegments source p gs) := by
  induction gs generalizing p with
  | nil => rfl
  | cons g gs ih =>
      unfold ofSegments
      rw [Point.down_after, ih]
      cases g.content with
      | gap => rfl
      | word lexeme => rfl
      | malformed first others =>
          have hfound : (first :: others).map (·.diagnose source (p.down k) g.text) =
              move (Location.down k) ((first :: others).map (·.diagnose source p g.text)) := by
            refine Eq.trans (List.map_congr_left fun f _ => ?_) List.map_map.symm
            rw [Fault.diagnose, Point.down_after]
            rfl
          dsimp only
          rw [hfound, move_precededBy]

theorem tokens_move (φ : Location → Location) (rs : Readings) :
    (move φ rs).tokens = move φ rs.tokens := by
  simp [tokens, move]

theorem diagnostics_move (φ : Location → Location) (rs : Readings) :
    (move φ rs).diagnostics = move φ rs.diagnostics := by
  simp [diagnostics, move, List.flatMap_map, List.map_flatMap]

/-! ## Segments after segments -/

def reach (p : Point) (gs : List Segment) : Point := p.after (gs.flatMap (·.text))

theorem reach_cons (g : Segment) : reach p (g :: gs) = reach (p.after g.text) gs := by
  rw [reach, List.flatMap_cons, Point.after_append, reach]

theorem ofSegments_append (hs : List Segment) :
    let later := ofSegments source (reach p gs) hs
    (ofSegments source p (gs ++ hs)).tokens = (ofSegments source p gs).tokens ++ later.tokens ∧
      (ofSegments source p (gs ++ hs)).diagnostics =
        (ofSegments source p gs).diagnostics ++ later.diagnostics ∧
      (ofSegments source p (gs ++ hs)).ending.token = later.ending.token := by
  induction gs generalizing p with
  | nil => exact ⟨rfl, rfl, rfl⟩
  | cons g gs ih =>
      obtain ⟨htokens, hfound, hending⟩ := ofSegments_cons source p g gs
      obtain ⟨htokens', hfound', hending'⟩ := ofSegments_cons source p g (gs ++ hs)
      obtain ⟨hmore, hreported, hend⟩ := ih (p.after g.text)
      intro later
      rw [← reach_cons] at hmore hreported hend
      refine ⟨?_, ?_, hending'.trans hend⟩
      · rw [List.cons_append, htokens', hmore, htokens, List.append_assoc]
      · rw [List.cons_append, hfound', hreported, hfound, List.append_assoc]

/-! ## Segments before a newline -/

theorem reach_beforeNewline : reach p (gs.map Segment.beforeNewline) = reach p gs := by
  rw [reach, List.flatMap_map]
  rfl

/-- The same words are read, and the same faults are found at the same places. -/
theorem ofSegments_beforeNewline :
    (ofSegments source p (gs.map Segment.beforeNewline)).tokens =
        (ofSegments source p gs).tokens ∧
      (ofSegments source p (gs.map Segment.beforeNewline)).diagnostics.map (·.location) =
        (ofSegments source p gs).diagnostics.map (·.location) := by
  induction gs generalizing p with
  | nil => exact ⟨rfl, rfl⟩
  | cons g gs ih =>
      obtain ⟨htokens, hfound, -⟩ := ofSegments_cons source p g gs
      obtain ⟨htokens', hfound', -⟩ :=
        ofSegments_cons source p g.beforeNewline (gs.map Segment.beforeNewline)
      obtain ⟨hmore, hreported⟩ := ih (p.after g.text)
      have hsame : g.beforeNewline.tokens source p = g.tokens source p ∧
          (g.beforeNewline.diagnostics source p).map (·.location) =
            (g.diagnostics source p).map (·.location) := by
        unfold Segment.tokens Segment.diagnostics Segment.beforeNewline
        cases g.content with
        | gap => exact ⟨rfl, rfl⟩
        | word lexeme => exact ⟨rfl, rfl⟩
        | malformed first others =>
            refine ⟨rfl, ?_⟩
            simp [Content.beforeNewline, Fault.beforeNewline, Fault.diagnose, Function.comp_def]
      rw [List.map_cons, htokens', hfound', htokens, hfound, List.map_append, List.map_append,
        hsame.1, hsame.2]
      exact ⟨congrArg _ hmore, congrArg _ hreported⟩

theorem closed_of_diagnostics
    (h : ∀ d ∈ (ofSegments source p gs).diagnostics, ∀ cause ∈ Cause.unclosed,
      d.message ≠ cause.message) : ∀ g ∈ gs, g.content.Closed := by
  induction gs generalizing p with
  | nil => exact List.forall_mem_nil _
  | cons g gs ih =>
      rw [(ofSegments_cons source p g gs).2.1, List.forall_mem_append] at h
      obtain ⟨hfound, hlater⟩ := h
      refine List.forall_mem_cons.2 ⟨?_, ih _ hlater⟩
      unfold Segment.diagnostics at hfound
      cases hc : g.content with
      | gap => trivial
      | word lexeme => trivial
      | malformed first others =>
          rw [hc] at hfound
          exact fun hcause => hfound _ (List.mem_cons_self ..) first.cause hcause rfl

end Readings

/-- What a text, a newline and another text yield. -/
theorem readings_newline (source : String) {A : List Char} (B : List Char)
    (closed : ∀ d ∈ (Readings.ofText source A).diagnostics, ∀ cause ∈ Cause.unclosed,
      d.message ≠ cause.message) :
    let whole := Readings.ofText source (A ++ '\n' :: B)
    let later := move (Location.down (1 + A.count '\n')) (Readings.ofText source B)
    whole.tokens = (Readings.ofText source A).tokens ++ later.tokens ∧
      whole.ending.token = later.ending.token ∧
      whole.diagnostics.map (·.location) =
        (Readings.ofText source A).diagnostics.map (·.location) ++
          later.diagnostics.map (·.location) := by
  have hA := segmented_segments A
  have hnone := Readings.closed_of_diagnostics source .origin (segments A) closed
  have hreach : (Readings.reach .origin ((segments A).map Segment.beforeNewline)).after ['\n'] =
      Point.origin.down (1 + A.count '\n') := by
    rw [Readings.reach_beforeNewline, Readings.reach, hA.flatMap_text]
    exact Point.origin_after_newline A
  have hlater : Readings.ofSegments source
      (Readings.reach .origin ((segments A).map Segment.beforeNewline))
      (Segment.gap ['\n'] :: segments B) =
        move (Location.down (1 + A.count '\n')) (Readings.ofText source B) := by
    rw [Readings.ofText, ← Readings.ofSegments_down, ← hreach]
    rfl
  intro whole later
  have hwhole : whole = Readings.ofSegments source .origin
      ((segments A).map Segment.beforeNewline ++ Segment.gap ['\n'] :: segments B) :=
    congrArg _ (hA.segments_newline hnone B)
  obtain ⟨htokens, hfound, hending⟩ := Readings.ofSegments_append source .origin
    ((segments A).map Segment.beforeNewline) (Segment.gap ['\n'] :: segments B)
  obtain ⟨hsame, hplaces⟩ := Readings.ofSegments_beforeNewline source .origin (segments A)
  rw [hlater] at htokens hfound hending
  rw [hwhole, htokens, hfound, hending, hsame, List.map_append, hplaces]
  exact ⟨rfl, rfl, rfl⟩

/-! ## Requests -/

namespace TokenStream

theorem drain_ofText_log (source text : String) :
    (TokenStream.ofText source text).drain.log.entries =
      (Readings.ofText source text.toList).diagnostics := by
  rw [drain_log]
  rfl

end TokenStream

/-- If a scan reports no comment, character or string that the end of the source cuts short, then a
newline and another text after it change nothing in it but its end, and after its tokens come those
of the other text, the end included, in the same columns and as many lines below as there are
newlines before.  The diagnostics are found at the places of those of the one text, and after them
those of the other, and there are as many. -/
theorem scan_append_lines {source A B : String}
    (closed : ∀ d ∈ (TokenStream.ofText source A).drain.log.entries, ∀ cause ∈ Cause.unclosed,
      d.message ≠ cause.message) :
    let stream (text : String) := TokenStream.ofText source text
    let scanned (text : String) (n : Nat) := ((stream text).skip (n + 1)).current
    let whole := A ++ "\n" ++ B
    let lower := Location.down (1 + A.toList.count '\n')
    (∃ m, (∀ n < m, (scanned A n).isEndOfFile = false ∧ scanned whole n = scanned A n) ∧
      (scanned A m).isEndOfFile = true ∧
      ∀ n, scanned whole (m + n) = move lower (scanned B n)) ∧
    (stream whole).drain.log.entries.map (·.location) =
      (stream A).drain.log.entries.map (·.location) ++
        (stream B).drain.log.entries.map (lower ·.location) ∧
    (stream whole).drain.log.size = (stream A).drain.log.size + (stream B).drain.log.size := by
  intro stream scanned whole lower
  have hwhole : whole.toList = A.toList ++ '\n' :: B.toList := by
    simp [whole, String.toList_append]
  rw [TokenStream.drain_ofText_log] at closed
  obtain ⟨htokens, hending, hplaces⟩ := readings_newline source B.toList closed
  rw [← hwhole] at htokens hending hplaces
  have hdiagnostics : (stream whole).drain.log.entries.map (·.location) =
      (stream A).drain.log.entries.map (·.location) ++
        (stream B).drain.log.entries.map (lower ·.location) := by
    simp only [stream, TokenStream.drain_ofText_log]
    rw [hplaces, Readings.diagnostics_move]
    simp [move, lower, Function.comp_def]
  refine ⟨⟨(stream A).remaining.length, fun n hn => ⟨?_, ?_⟩, ?_, fun n => ?_⟩, hdiagnostics, ?_⟩
  · show (scanned A n).isEndOfFile = false
    rw [TokenStream.isEndOfFile_current_skip, decide_eq_false (Nat.not_le.2 hn)]
  · have hthere : (stream whole).remaining[n]? = (stream A).remaining[n]? := by
      show (Readings.ofText source whole.toList).tokens[n]? = _
      rw [htokens]
      exact List.getElem?_append_left hn
    simp only [scanned, TokenStream.current_skip, hthere, List.getElem?_eq_getElem hn,
      Option.getD_some]
  · show (scanned A _).isEndOfFile = true
    rw [TokenStream.isEndOfFile_current_skip, decide_eq_true (Nat.le_refl _)]
  · have hthere : (stream whole).remaining[(stream A).remaining.length + n]? =
        ((stream B).remaining[n]?).map (move lower) := by
      show (Readings.ofText source whole.toList).tokens[_]? = _
      rw [htokens, Readings.tokens_move]
      show ((stream A).remaining ++ (stream B).remaining.map (move lower))[_]? = _
      rw [List.getElem?_append_right (Nat.le_add_right _ _), Nat.add_sub_cancel_left,
        List.getElem?_map]
    simp only [scanned, TokenStream.current_skip, hthere]
    cases (stream B).remaining[n]? with
    | some t => rfl
    | none => exact hending
  · have hlength := congrArg List.length hdiagnostics
    simp only [List.length_map, List.length_append] at hlength
    simpa only [Log.size_eq] using hlength

/-- An exponent without digits at the end of the first text, and nothing left open there. -/
theorem scan_append_lines_exponent :
    let stream (text : String) := TokenStream.ofText "Two" text
    let scanned (text : String) (n : Nat) := ((stream text).skip (n + 1)).current
    let lower := Location.down 2
    (∀ d ∈ (stream "x = /* */\n1e").drain.log.entries, ∀ cause ∈ Cause.unclosed,
      d.message ≠ cause.message) ∧
    (∃ m, (∀ n < m, (scanned "x = /* */\n1e" n).isEndOfFile = false ∧
        scanned "x = /* */\n1e\n+ @ 'y" n = scanned "x = /* */\n1e" n) ∧
      (scanned "x = /* */\n1e" m).isEndOfFile = true ∧
      ∀ n, scanned "x = /* */\n1e\n+ @ 'y" (m + n) = move lower (scanned "+ @ 'y" n)) ∧
    (stream "x = /* */\n1e\n+ @ 'y").drain.log.entries.map (·.location) =
      (stream "x = /* */\n1e").drain.log.entries.map (·.location) ++
        (stream "+ @ 'y").drain.log.entries.map (lower ·.location) ∧
    (stream "x = /* */\n1e\n+ @ 'y").drain.log.size = 3 := by
  have hclosed : ∀ d ∈ (TokenStream.ofText "Two" "x = /* */\n1e").drain.log.entries,
      ∀ cause ∈ Cause.unclosed, d.message ≠ cause.message := by decide +kernel
  obtain ⟨htokens, hplaces, hsize⟩ := scan_append_lines (B := "+ @ 'y") hclosed
  refine ⟨hclosed, htokens, hplaces, hsize.trans ?_⟩
  decide +kernel

end Lexical

end MiniJava
