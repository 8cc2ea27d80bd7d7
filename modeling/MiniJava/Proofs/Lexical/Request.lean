import MiniJava.Proofs.Lexical.Attempt
import MiniJava.Proofs.Lexical.FaultOrder
/-!
# What one request for a token passes over

A request passes over gaps in silence, reports each malformed text that it gives up, and ends with
a word or at the end of the source.  So what it records tells what went wrong in it: something is
recorded exactly if something was malformed, and each malformed text has a report of its own.
-/

namespace MiniJava.Lexical

namespace Request

variable {source : String} {p : Point} {done left : List Char}
  {reports : List (List Diagnostic)} {t : Token}

/-- No attempt is given up in silence, and what is reported concerns the spelling of words. -/
theorem reported (h : Request source p done left reports t) :
    ∀ report ∈ reports, report ≠ [] ∧ ∀ d ∈ report, d.stage = .lexical := by
  induction h with
  | finish => exact List.forall_mem_nil _
  | word => exact List.forall_mem_nil _
  | gap _ _ ih => exact ih
  | failure _ _ ih =>
      refine List.forall_mem_cons.2 ⟨⟨List.cons_ne_nil _ _, ?_⟩, ih⟩
      exact List.forall_mem_map.2 fun _ _ => rfl

/-- What is reported stands in order, from where the request is made up to the token, which stands
before the text that is left. -/
theorem ordered (h : Request source p done left reports t) :
    (⟨p, source⟩ :: (reports.flatten.map (·.location) ++
      [t.location, ⟨p.after done, source⟩])).Pairwise Location.NotAfter := by
  induction h with
  | finish =>
      exact (Location.NotAfter.refl _).ordered_cons
        ((Location.NotAfter.refl _).ordered_cons (List.pairwise_singleton _ _))
  | @word p left l _ =>
      have hafter := Location.notAfter_after source p l.written
      exact (Location.NotAfter.refl _).ordered_cons
        (hafter.ordered_cons (List.pairwise_singleton _ _))
  | @gap p text done left reports t _ _ ih =>
      rw [Point.after_append]
      exact (Location.notAfter_after source p text).ordered ih
  | @failure p text done left reports t first others hread _ ih =>
      have hfaults : Ascending 0 (first :: others) := Segment.read?_ordered hread
      have hplaces := hfaults.places_ordered source p text ih
      rw [List.flatten_cons, List.map_append, List.map_map, List.append_assoc, Point.after_append]
      exact hplaces

theorem token_notAfter (h : Request source p done left reports t) :
    t.location.NotAfter ⟨p.after done, source⟩ :=
  List.rel_of_pairwise_cons (List.pairwise_append.1 h.ordered.of_cons).2.1
    (List.mem_singleton_self _)

end Request

namespace TokenStream

/-! ## Streams in use -/

/-- What can be asked of a stream: the next token, to record a diagnostic, and to hand out what is
recorded so far. -/
inductive Use where
  | request
  | record (d : Diagnostic)
  | take

def use (s : TokenStream) : Use → TokenStream
  | .request => s.next
  | .record d => s.record d
  | .take => s.takeDiagnostics.2

def used (source text : String) (uses : List Use) : TokenStream :=
  uses.foldl use (ofText source text)

/-- A stream stands behind a part of its source, and the token given last is not after it. -/
structure Stands (s : TokenStream) (source : String) (done left : List Char) : Prop where
  source_eq : s.source = source
  state_eq : s = s.before (Point.origin.after done) left
  current_notAfter : s.current.location.NotAfter ⟨Point.origin.after done, source⟩

theorem Stands.request {s : TokenStream} {source : String} {before ahead : List Char}
    (h : s.Stands source before ahead) :
    ∃ (done left : List Char) (reports : List (List Diagnostic)) (t : Token),
      ahead = done ++ left ∧ Request source (Point.origin.after before) done left reports t ∧
      s.next = (s.give ⟨reports.flatten, t⟩).before (Point.origin.after (before ++ done)) left ∧
      s.next.Stands source (before ++ done) left := by
  obtain ⟨rfl, hstate, -⟩ := h
  obtain ⟨done, left, reports, t, hahead, hrequest, hnext⟩ :=
    s.exists_request (Point.origin.after before) ahead
  rw [← hstate, ← Point.after_append] at hnext
  have hcurrent := hrequest.token_notAfter
  rw [← Point.after_append] at hcurrent
  refine ⟨done, left, reports, t, hahead, hrequest, hnext, ?_⟩
  rw [hnext]
  exact ⟨rfl, rfl, hcurrent⟩

theorem Stands.use {s : TokenStream} {source : String} {before ahead : List Char}
    (h : s.Stands source before ahead) (u : Use) :
    ∃ done left, ahead = done ++ left ∧ (s.use u).Stands source (before ++ done) left := by
  -- only a request moves the stream; the log is no part of where it stands
  have hstay : ∀ log, { s with log }.Stands source (before ++ []) ahead := by
    obtain ⟨rfl, hstate, hcurrent⟩ := h
    intro log
    rw [List.append_nil]
    exact ⟨rfl, by rw [hstate]; rfl, hcurrent⟩
  cases u with
  | request =>
      obtain ⟨done, left, _, _, hahead, -, -, hstands⟩ := h.request
      exact ⟨done, left, hahead, hstands⟩
  | record d => exact ⟨[], ahead, rfl, hstay _⟩
  | take => exact ⟨[], ahead, rfl, hstay _⟩

/-- However a stream is used, it stands somewhere in its source. -/
theorem stands_used (source text : String) (uses : List Use) :
    ∃ done left, text.toList = done ++ left ∧
      (used source text uses).Stands source done left := by
  induction uses using List.reverseRecOn with
  | nil => exact ⟨[], _, rfl, rfl, ofText_eq_before source text, .refl _⟩
  | append_singleton uses u ih =>
      obtain ⟨before, ahead, htext, hstands⟩ := ih
      obtain ⟨done, left, rfl, hlater⟩ := hstands.use u
      refine ⟨before ++ done, left, by rw [htext, List.append_assoc], ?_⟩
      rw [used, List.foldl_concat]
      exact hlater

end TokenStream

end MiniJava.Lexical
