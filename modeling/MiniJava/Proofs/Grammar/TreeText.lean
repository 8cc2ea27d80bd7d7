import MiniJava.Proofs.Grammar.Derivation
import MiniJava.Proofs.Lexical.Reals
import MiniJava.Proofs.Rendering.RoundTrip
import MiniJava.Proofs.Tree.Display
import MiniJava.Tree.Equality
/-!
# The text of a tree

The text that a tree is shown as, on one line or laid out, is a JSON text of the tree's value and of
no other.  It determines the tree but for the places of its nodes.
-/

namespace MiniJava.Grammar

open Json

section

variable {c : Category} {ns : List Node} {s : Trace}

/-- Derived trees hold the reals of the tokens read for them. -/
theorem Derives.printable (h : Derives c ns s) (hs : ∀ t ∈ s.tokens, t.toLexeme.Printable) :
    ∀ n ∈ ns, n.Printable := by
  intro n hn x hx
  obtain ⟨m, hm, hx⟩ := List.mem_flatMap.1 hx
  obtain ⟨l, rfl⟩ : ∃ l, m = .literal (.real x) l := by
    unfold Node.ownReals at hx
    split at hx
    · next y l =>
      obtain rfl := List.mem_singleton.1 hx
      exact ⟨l, rfl⟩
    · exact absurd hx (List.not_mem_nil)
  obtain ⟨t, ht, hvalue, -⟩ := h.literal_mem hn hm
  have hpayload : t.payload = .real x := by
    unfold literalValue? at hvalue
    split at hvalue <;> cases hvalue
    assumption
  exact hs t ht x hpayload

end

theorem printable_parsed {source text : String} {q : Parser}
    (hq : ∀ t ∈ q.ahead, t ∈ sourceTokens source text) :
    q.program.1.Printable ∧
      ∀ p ∈ [statement, expression], ∀ n, (q.run p).1 = .ok n → n.Printable := by
  have hprintable : ∀ t ∈ q.ahead, t.toLexeme.Printable := fun t ht =>
    Lexical.printable_tokens source text.toList t (hq t ht)
  have hconstruct : ∀ {p : Parse Node} {c : Category}, Deriving c p →
      ∀ n, (q.run p).1 = .ok n → n.Printable := by
    intro p c hp n hn
    obtain ⟨s, hderives, hs⟩ := Parser.run_derives hp hn
    exact hderives.printable (fun t ht => hprintable t (hs.subset ht)) n (List.mem_singleton.2 rfl)
  constructor
  · obtain ⟨first, others, u, v, hclasses, hfirst, hothers, htokens, -⟩ := q.program_derives
    rw [← htokens, Trace.tokens_append, List.forall_mem_append] at hprintable
    intro n hn
    rw [hclasses] at hn
    exact List.forall_mem_append.2
      ⟨hfirst.printable hprintable.1, hothers.printable hprintable.2⟩ n hn
  · exact List.forall_mem_cons.2
      ⟨hconstruct deriving_statement, List.forall_mem_singleton.2 (hconstruct deriving_expression)⟩

/-- A string is written as a JSON string of its characters and of no others.  The text of a
printable tree and its layout denote the value of the tree and no other, and two such trees have
one text if and only if they are equal but for their places.  All trees that are parsed from a
source are printable. -/
theorem tree_text_determines :
    (∀ s t : String, Quoted t (writeString s []) ↔ t = s) ∧
    (∀ n : Node, n.Printable → n.toJson.Shown n.display) ∧
    (∀ p : Program, p.Printable → p.toJson.Shown p.display) ∧
    (∀ a b : Node, a.Printable → b.Printable → (a.display = b.display ↔ Alike nowhere a b)) ∧
    (∀ p q : Program, p.Printable → q.Printable → (p.display = q.display ↔ p.Same q)) ∧
    (∀ (p : Program) (n : Node), p.Printable → n.Printable → p.display ≠ n.display) ∧
    ∀ source text : String, (parseText source text).1.Printable ∧
      ∀ q : Parser, (∀ t ∈ q.ahead, t ∈ sourceTokens source text) →
        q.program.1.Printable ∧
          ∀ p ∈ [statement, expression], ∀ n, (q.run p).1 = .ok n → n.Printable := by
  have hnowhere : ∀ l l', nowhere l = nowhere l' := fun _ _ => rfl
  have hquoted : ∀ s t : String, Quoted t (writeString s []) ↔ t = s := by
    have hend : EndsNumeral [] := fun c hc => absurd hc (Option.not_mem_none c)
    intro s t
    refine ⟨fun h => ?_, fun h => h ▸ quoted_writeString s⟩
    exact (determined_quoted t h (quoted_writeString s) hend hend rfl).1
  refine ⟨hquoted, fun _ => Node.shown_display, fun _ => Program.shown_display,
    fun _ _ => Node.display_eq_iff hnowhere, fun _ _ => Program.display_eq_iff hnowhere,
    fun _ _ => Program.display_ne, fun source text => ⟨?_, fun _ => printable_parsed⟩⟩
  have hahead : ∀ t ∈ (Parser.ofStream (.ofText source text)).ahead, t ∈ sourceTokens source text :=
    fun t ht => ahead_ofText source text ▸ ht
  exact (printable_parsed hahead).1

section

private def shownPlace (column : Nat) : Location := ⟨⟨1, column⟩, "Shown"⟩

/-- The sum of one and a half and a string with a quote in it. -/
private def shownSum (column : Nat) : Node :=
  .binary .add (.literal (.real ⟨false, 1023, 2 ^ 51, by decide, by decide⟩) (shownPlace column))
    (.literal (.string "say \"\\\n") (shownPlace (column + 6))) (shownPlace (column + 4))

private theorem printable_shownSum (column : Nat) : (shownSum column).Printable := by
  unfold Node.Printable shownSum
  simp only [Node.realLiterals_eq, Node.ownReals, Node.children, List.flatMap_cons,
    List.flatMap_nil, List.append_nil, List.nil_append, List.forall_mem_singleton]
  exact ⟨rfl, rfl⟩

theorem tree_text_determines_sum :
    let a := shownSum 1
    let b := shownSum 7
    let p : Program := ⟨shownPlace 1, [a]⟩
    let q : Program := ⟨shownPlace 7, [b]⟩
    let parser := Parser.ofStream (.ofText "Shown" "1.5")
    let n := .literal (.real ⟨false, 1023, 2 ^ 51, by decide, by decide⟩) (shownPlace 1)
    a.toJson.Shown a.display ∧ a.display = b.display ∧ p.toJson.Shown p.display ∧
      p.display = q.display ∧ p.display ≠ a.display ∧
      (parser.run expression).1 = .ok n ∧ n.Printable := by
  intro a b p q parser n
  have ha : a.Printable := printable_shownSum 1
  have hb : b.Printable := printable_shownSum 7
  have hp : p.Printable := List.forall_mem_singleton.2 ha
  have hq : q.Printable := List.forall_mem_singleton.2 hb
  have hrun : (parser.run expression).1 = .ok n := by decide +kernel
  obtain ⟨-, hnode, hprogram, hnodes, hprograms, hkinds, hparsed⟩ := tree_text_determines
  have hparsed := (hparsed "Shown" "1.5").2 parser
    (fun t ht => ahead_ofText "Shown" "1.5" ▸ ht)
  exact ⟨hnode a ha, (hnodes a b ha hb).2 rfl, hprogram p hp, (hprograms p q hp hq).2 rfl,
    hkinds p a hp ha, hrun, hparsed.2 expression (by simp) n hrun⟩

end

end MiniJava.Grammar
