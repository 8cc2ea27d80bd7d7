import MiniJava.Proofs.Grammar.Derivation
import MiniJava.Proofs.Tree.Nodes
/-!
# The shape of parsed trees

Any node may stand in any slot of a tree.  Of what is parsed, whatever was wrong with the
source, each slot holds what the grammar has there.
-/

namespace MiniJava

namespace Node

/-- The main method: public, static and void, with one parameter and nothing returned. -/
inductive IsMainMethod : Node → Prop
  | intro {parameter declarations statements} {l m k : Location} :
      IsMainMethod (.methodDeclaration ["public", "static"] "void" "main"
        [.variableDeclaration "String[]" parameter l]
        (.methodBody declarations statements none m) k)

/-- A method of a class that is not the main class: public, and with no `return` but that at its
end, which is missing only if that is `reported`. -/
inductive IsMemberMethod (reported : Prop) : Node → Prop
  | intro {attributes type name parameters declarations statements returned} {l m : Location} :
      "void" ∉ attributes → (∀ n ∈ statements, n.isReturn = false) →
      (∀ n ∈ returned, n.isReturn = true) → (returned = none → reported) →
      IsMemberMethod reported (.methodDeclaration ("public" :: attributes) type name parameters
        (.methodBody declarations statements returned l) m)

/-- The slots of a node hold what belongs there, where an error may be `reported`. -/
def SlotsHold (reported : Prop) : Node → Prop
  | mainClass _ method _ => method.IsMainMethod
  | classDeclaration _ _ declarations methods _ =>
    (∀ n ∈ declarations, n.isVariableDeclaration = true) ∧
      ∀ n ∈ methods, n.IsMemberMethod reported
  | methodDeclaration _ _ _ parameters _ _ => ∀ n ∈ parameters, n.isVariableDeclaration = true
  | methodBody declarations statements _ _ =>
    (∀ n ∈ declarations, n.isVariableDeclaration = true) ∧
      ∀ n ∈ statements.head?, n.isVariableDeclaration = false
  | newObject type constructor _ =>
    ∃ arguments l, constructor = .methodCall type arguments l
  | newArray type _ _ => ∃ element, type = element ++ "[]"
  | _ => True

end Node

namespace Grammar

theorem text_ne_void {t : Token} (h : t.WellFormed) (ht : isAttribute t = true) :
    t.text ≠ "void" := by
  intro hvoid
  obtain ⟨hkind, hterminal⟩ := Bool.and_eq_true_iff.1 ht
  have hreserved : t.kind.isReserved = true := by rw [beq_iff_eq.1 hkind]; rfl
  have hlexeme := (h.spells_of_isReserved hreserved).1
  have htext : Lexicon.spelling t.terminal = "void" := by
    rw [← hvoid, congrArg Lexeme.text hlexeme, Terminal.lexeme, Lexicon.classify_text]
  revert hterminal htext
  cases t.terminal <;> decide

def Category.Shapes (reported : Prop) : Category → Node → Prop
  | body needsReturn, n => ∃ declarations statements returned l,
      n = .methodBody declarations statements returned l ∧
      (needsReturn = true → ∀ m ∈ statements, m.isReturn = false) ∧
      (∀ m ∈ returned, needsReturn = true ∧ m.isReturn = true) ∧
      (needsReturn = true → returned = none → reported)
  | method, n => n.IsMemberMethod reported
  | mainMethod, n => n.IsMainMethod
  | _, _ => True

def Trace.Fits (reported : Prop) (s : Trace) : Prop :=
  (∀ t ∈ s.tokens, t.WellFormed) ∧ (s.errors ≠ [] → reported)

section

variable {c : Category} {n : Node} {ns ms : List Node} {t : Token} {s u : Trace} {reported : Prop}

theorem Trace.fits_append : (s ++ u).Fits reported ↔ s.Fits reported ∧ u.Fits reported := by
  rw [Trace.Fits, Trace.tokens_append, Trace.errors_append, List.forall_mem_append, ne_eq,
    List.append_eq_nil_iff, not_and_or, or_imp, and_and_and_comm]
  rfl

theorem Trace.fits_read :
    Trace.Fits reported (.read t :: s) ↔ t.WellFormed ∧ s.Fits reported := by
  rw [Trace.Fits, Trace.tokens_read, List.forall_mem_cons, and_assoc]
  rfl

theorem Derives.kind_ne_mainClass (h : Derives c ns s) (hc : c ≠ .mainClass) :
    ∀ n ∈ ns, n.kind ≠ .mainClass := by
  intro n hn hkind
  have hadmits := h.admits n hn
  cases n with
  | mainClass =>
      cases c with
      | mainClass => exact hc rfl
      | _ => simp [Category.Admits, Node.kind, Node.isExpression, Node.isVariableDeclaration]
              at hadmits
  | literal value => cases value <;> cases hkind
  | _ => cases hkind

theorem DerivedBelow.kind_ne_mainClass (h : DerivedBelow s ns) :
    ∀ n ∈ ns, ∀ m ∈ n.nodes, m.kind ≠ .mainClass := by
  intro n hn m hm
  obtain ⟨c, hc, u, hderives, -⟩ := h n hn m hm
  exact hderives.kind_ne_mainClass hc m (List.mem_singleton.2 rfl)

theorem Trace.Fits.of_infix (h : s.Fits reported) (hu : u <:+: s) : u.Fits reported := by
  obtain ⟨before, after, rfl⟩ := hu
  exact (Trace.fits_append.1 (Trace.fits_append.1 h).1).2

/-- Derived nodes are as their category tells, and hold in their slots what belongs there. -/
theorem Derives.shapes (h : Derives c ns s) (hs : s.Fits reported) :
    ∀ n ∈ ns, c.Shapes reported n ∧ n.SlotsHold reported := by
  induction h with
  | skip => exact List.forall_mem_nil _
  | append _ _ ihn ihm =>
      obtain ⟨hs, hu⟩ := Trace.fits_append.1 hs
      exact List.forall_mem_append.2 ⟨ihn hs, ihm hu⟩
  | primary _ ih => exact ih hs
  | expressionStatement _ ih => exact ih hs
  | declarationStatement _ ih => exact ih hs
  | array => exact List.forall_mem_singleton.2 ⟨trivial, _, rfl⟩
  | object => exact List.forall_mem_singleton.2 ⟨trivial, _, _, rfl⟩
  | @body needsReturn statements returned t s u _ hreturns _ hreturned hnone =>
      obtain ⟨-, hu⟩ := Trace.fits_append.1 (Trace.fits_read.1 hs).2
      refine List.forall_mem_singleton.2 ⟨⟨_, _, _, _, rfl, ?_, hreturned, ?_⟩, ?_, ?_⟩
      · exact fun hneeds n hn => hreturns hneeds n ((List.dropWhile_sublist _).subset hn)
      · exact fun hneeds habsent => hu.2 (hnone hneeds habsent)
      · exact fun n hn => List.mem_takeWhile_imp hn
      · intro n hn
        have hhead := List.head?_dropWhile_not Node.isVariableDeclaration statements
        rw [Option.mem_def.1 hn] at hhead
        simpa using hhead
  | @method attributes type name parameters body t s u hattributes hp _ _ ihb =>
      obtain ⟨hs, hu⟩ := Trace.fits_append.1 (Trace.fits_read.1 hs).2
      obtain ⟨declarations, statements, returned, l, rfl, hreturns, hreturned, hnone⟩ :=
        (ihb hu body (List.mem_singleton.2 rfl)).1
      refine List.forall_mem_singleton.2 ⟨?_, hp.admits⟩
      refine .intro ?_ (hreturns rfl) (fun n hn => (hreturned n hn).2) (hnone rfl)
      intro hvoid
      obtain ⟨a, ha, hvoid⟩ := List.mem_map.1 hvoid
      obtain ⟨hattribute, hread⟩ := hattributes a ha
      exact text_ne_void (hs.1 a (List.mem_filterMap.2 ⟨_, hread, rfl⟩)) hattribute hvoid
  | @mainMethod name body l t s u hp _ _ ihb =>
      obtain ⟨-, hu⟩ := Trace.fits_append.1 (Trace.fits_read.1 hs).2
      obtain ⟨declarations, statements, returned, l, rfl, -, hreturned, -⟩ :=
        (ihb hu body (List.mem_singleton.2 rfl)).1
      obtain rfl : returned = none :=
        Option.eq_none_iff_forall_not_mem.2 fun n hn => Bool.false_ne_true (hreturned n hn).1
      exact List.forall_mem_singleton.2 ⟨.intro, hp.admits⟩
  | classDeclaration _ hkinds _ _ ihm =>
      obtain ⟨-, hu⟩ := Trace.fits_append.1 (Trace.fits_read.1 hs).2
      exact List.forall_mem_singleton.2 ⟨trivial, hkinds, fun n hn => (ihm hu n hn).1⟩
  | @mainClass name method t s _ ih =>
      have hmethod := ih (Trace.fits_read.1 hs).2 method (List.mem_singleton.2 rfl)
      exact List.forall_mem_singleton.2 ⟨trivial, hmethod.1⟩
  | _ => exact List.forall_mem_singleton.2 ⟨trivial, trivial⟩

theorem Derives.slotsHold (h : Derives c ns s) (hs : s.Fits reported) :
    ∀ n ∈ ns, ∀ m ∈ n.nodes, m.SlotsHold reported := by
  intro n hn m hm
  obtain ⟨d, u, hderives, hu⟩ := h.exists_derivedIn n hn m hm
  exact (hderives.shapes (hs.of_infix hu) m (List.mem_singleton.2 rfl)).2

end

/-- Every tree that is parsed has the shape of a program, errors or none.  A main class is only
the first of the classes, every other class is an ordinary one, and every node holds in its slots
what belongs there.  A method without its `return` has been reported. -/
theorem program_shape (source text : String) :
    let p := (parseText source text).1
    (∀ n ∈ p.classes.head?, n.kind = .mainClass ∨ n.kind = .classDeclaration) ∧
    (∀ n ∈ p.classes.tail, n.kind = .classDeclaration) ∧
    (∀ n ∈ p.classes, ∀ k ∈ n.children, ∀ m ∈ k.nodes, m.kind ≠ .mainClass) ∧
    ∀ n ∈ p.nodes, n.SlotsHold ((parseText source text).2.hadError = true) := by
  intro p
  obtain ⟨first, others, u, v, hderived, hfirst, hothers, htokens, herror⟩ :=
    source_derives source text
  have hclasses : p.classes = first.toList ++ others := hderived
  have hfits : (u ++ v).Fits ((parseText source text).2.hadError = true) :=
    ⟨htokens ▸ Lexical.wellFormed_tokens source text.toList, herror.2⟩
  obtain ⟨hu, hv⟩ := Trace.fits_append.1 hfits
  have hkinds := hothers.admits
  rw [p.nodes_eq, hclasses, List.forall_mem_flatMap]
  refine ⟨?_, ?_, List.forall_mem_append.2 ⟨?_, ?_⟩, List.forall_mem_append.2 ⟨?_, ?_⟩⟩
  · cases first with
    | some n =>
        intro m hm
        obtain rfl := Option.some.inj hm
        exact .inl (hfirst.admits n (List.mem_singleton.2 rfl))
    | none => exact fun m hm => .inr (hkinds m (List.mem_of_mem_head? hm))
  · cases first with
    | some n => exact hkinds
    | none => exact fun m hm => hkinds m (List.mem_of_mem_tail hm)
  · exact fun n hn => (hfirst.throughout n hn).2.kind_ne_mainClass
  · exact fun n hn => (hothers.throughout n hn).2.kind_ne_mainClass
  · exact hfirst.slotsHold hu
  · exact hothers.slotsHold hv

end Grammar

end MiniJava
