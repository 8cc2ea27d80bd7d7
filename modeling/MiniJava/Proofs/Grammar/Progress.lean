import MiniJava.Proofs.Production.Consumption
import MiniJava.Grammar.Program
/-!
# Progress

No operand, statement, method or class is made of nothing, so every list of the grammar goes
on to its end, and the production of programs yields a program on every input.
-/

namespace MiniJava.Grammar

open Parse

section

variable {operand : Parse Node}

theorem advances_literal {t : Token} (ht : t.kind ≠ .endOfFile) : AdvancesAt t literal := by
  refine advancesAt_bind (advancesAt_advance ?_)
  rintro l rfl
  exact ht rfl

theorem advances_keywordPrimary {t : Token} (ht : t.kind ≠ .endOfFile) :
    AdvancesAt t (keywordPrimary operand t) := by
  unfold keywordPrimary
  split
  · refine advancesAt_bind (advancesAt_advance ?_)
    rintro l rfl
    exact ht rfl
  · exact advances_bind (advances_expect (by decide)) t
  · exact advances_bind (advances_expect (by decide)) t
  · exact advancesAt_fail _

theorem advances_primary : Advances (primary operand) := by
  refine advances_current_bind fun t => ?_
  split
  · next ht => exact advances_literal (by rw [ht]; decide)
  · next ht => exact advances_literal (by rw [ht]; decide)
  · next ht => exact advances_literal (by rw [ht]; decide)
  · next ht => exact advances_literal (by rw [ht]; decide)
  · next ht => exact advances_literal (by rw [ht]; decide)
  · exact advances_bind (advances_expectKind (by decide)) t
  · next ht => exact advances_keywordPrimary (by rw [ht]; decide)
  · split
    · exact advances_bind (advances_expect (by decide)) t
    · exact advancesAt_fail _
  · split
    · exact advances_bind (advances_expect (by decide)) t
    · exact advancesAt_fail _
  · exact advancesAt_fail _
  · exact advancesAt_fail _
  · exact advancesAt_fail _

end

theorem advances_operand : Advances operand :=
  advances_fix (fun _ _ => advances_bind advances_primary) ()

theorem advances_expression : Advances expression := advances_bind advances_operand

theorem advances_typeName : Advances typeName := by
  refine advances_current_bind fun t => ?_
  split
  · next ht =>
    refine advancesAt_bind (advancesAt_advance ?_)
    rintro l rfl
    exact absurd ht (show ¬ (TokenKind.endOfFile = .dataType ∨
      TokenKind.endOfFile = .identifier) by decide)
  · exact advancesAt_refuse _

theorem advances_statement : Advances statement := by
  refine advances_fix (fun self _ => advances_current_bind fun t => ?_) ()
  split
  · exact advances_bind (advances_expect (by decide)) t
  · exact advances_bind (advances_expect (by decide)) t
  · exact advances_bind (advances_expect (by decide)) t
  · exact advances_bind (advances_expect (by decide)) t
  · exact advances_bind (advances_expect (by decide)) t
  · exact advances_bind (advances_expect (by decide)) t
  · split
    · exact advances_bind (advances_seq fun _ => advances_bind advances_typeName) t
    · exact advances_bind advances_expression t

theorem advances_classDeclaration : Advances classDeclaration :=
  advances_bind (advances_expect (by decide))

theorem advances_topItem : Advances topItem := by
  intro front
  refine advances_accept_bind (by decide) fun _ => ?_
  refine advances_check_bind (fun _ => ?_) fun _ => ?_
  · exact advances_bind advances_classDeclaration front
  · exact advances_bind advances_statement front

theorem advances_mainClass : Advances (some <$> mainClass) :=
  fun front => advancesAt_map (advances_bind (advances_expect (by decide)) front)

theorem topItem_reads {finish : Location} {ts later : List Token} {node : Node}
    (hclass : classDeclaration.Reads finish ts later node)
    (hbegins : ∃ c body, ts = c :: body ∧ c.terminal = .classKeyword)
    (hkind : node.kind = .classDeclaration) : topItem.Reads finish ts later (some node) := by
  obtain ⟨c, body, rfl, hc⟩ := hbegins
  refine (reads_accept_bind (by decide)).2 (.inr ⟨?_, ?_⟩)
  · show c.terminal ≠ .semicolon
    rw [hc]
    decide
  · apply reads_check_bind.2
    have hcheck : ((frontOf finish (c :: body ++ later)).terminal == .classKeyword) = true :=
      beq_iff_eq.2 hc
    rw [hcheck]
    refine reads_bind.2 ⟨c :: body, [], node, (List.append_nil _).symm, hclass, ?_⟩
    exact reads_keep.2 ⟨rfl, hkind, rfl⟩

theorem otherClasses_ok (finish : Location) (ahead : List Token) :
    ∃ found trace, otherClasses.run finish ahead = ⟨.ok found, trace, []⟩ := by
  obtain ⟨found, trace, rest, hrun, rfl | hstop⟩ :=
    items_ok (fun t _ => advances_topItem t) finish ahead
  · exact ⟨found, trace, hrun⟩
  · exact absurd hstop Bool.false_ne_true

theorem program_run_nil (finish : Location) :
    program.run finish [] = ⟨.ok ⟨finish, []⟩, [.report ⟨finish, .emptyFile⟩], []⟩ := rfl

/-- A program is what a round for the main class yields and the classes in what it left. -/
theorem program_run {finish : Location} {ahead rest : List Token} {first : Option Node}
    {others : List Node} {trace trace' : Trace} (hne : ahead ≠ [])
    (hround : (recovering toStatement (some <$> mainClass)).run finish ahead =
      ⟨.ok first, trace, rest⟩)
    (hothers : otherClasses.run finish rest = ⟨.ok others, trace', []⟩) :
    program.run finish ahead =
      ⟨.ok ⟨(frontOf finish ahead).location, first.toList ++ others⟩, trace ++ trace', []⟩ := by
  have hrun : program.run finish ahead =
      ((recovering toStatement (some <$> mainClass)).run finish ahead).andThen fun first rest =>
        (otherClasses.run finish rest).andThen fun others rest =>
          ⟨.ok ⟨(frontOf finish ahead).location, first.toList ++ others⟩, [], rest⟩ := by
    cases ahead with
    | nil => exact absurd rfl hne
    | cons t ts => rfl
  rw [hrun, hround]
  simp only [Outcome.andThen, hothers, List.append_nil]

/-- A program comes of every source, and nothing of the source is left over. -/
theorem program_ok (finish : Location) (ahead : List Token) :
    ∃ p trace, program.run finish ahead = ⟨.ok p, trace, []⟩ := by
  by_cases hne : ahead = []
  · subst hne
    exact ⟨_, _, program_run_nil finish⟩
  · obtain ⟨first, trace, rest, hround, -⟩ := recovering_advances (advances_mainClass _) hne
    obtain ⟨others, trace', hothers⟩ := otherClasses_ok finish rest
    exact ⟨_, _, program_run hne hround hothers⟩

end MiniJava.Grammar
