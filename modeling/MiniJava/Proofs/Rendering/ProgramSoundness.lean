import MiniJava.Proofs.Rendering.StatementSoundness
import MiniJava.Proofs.Grammar.Source
/-!
# Programs read are programs written

A program that is read without any error is a loose rendering of the tree that it yields.
-/

namespace MiniJava.Grammar

open Parse Rendering

theorem bodyReturn_sound :
    Sound bodyReturn fun found ts _ => Returned true true found ts := by
  refine sound_check_bind ?_ ?_
  · refine (recovering_sound (sound_map returnStatement_sound ?_)).mono fun _ _ _ h _ => h
    exact fun n ts _ hn => ⟨rfl, hn.1, hn.2⟩
  · have hunexpected : Sound (unexpected (.terminal .returnKeyword)) fun _ _ _ => True :=
      fun _ _ _ _ _ _ => trivial
    exact sound_bind hunexpected fun e _ => sound_report_bind

theorem bodyItems_sound (needsReturn : Bool) :
    Sound (items (endsBody needsReturn) toStatement (some <$> statement)) fun ns ts _ =>
      Sequence (Rendering.Statement true) ns ts ∧
        (needsReturn = true → ∀ n ∈ ns, n.isReturn = false) := by
  refine items_sound (fun ns ts => Sequence (Rendering.Statement true) ns ts ∧
    (needsReturn = true → ∀ n ∈ ns, n.isReturn = false)) (sound_some statement_sound)
    ⟨.nil, fun _ => List.forall_mem_nil _⟩ ?_
  rintro found s others ts front hgo ⟨n, rfl, hn, -⟩ ⟨hothers, hreturns⟩
  refine ⟨.cons hn hothers, fun hneeds => ?_⟩
  refine List.forall_mem_cons.2 ⟨?_, hreturns hneeds⟩
  rw [← Bool.not_eq_true]
  intro hreturn
  obtain ⟨t, us, rfl, ht⟩ := hn.eq_cons_of_isReturn hreturn
  have hterminal : t.terminal = .returnKeyword := congrArg Lexeme.terminal ht
  rw [List.cons_append, List.headD_cons, endsBody, hneeds, hterminal] at hgo
  exact absurd hgo (by decide)

theorem methodBody_sound (needsReturn : Bool) :
    Sound (methodBody needsReturn) fun n ts _ => Body true needsReturn n ts := by
  refine sound_expect_bind (by decide) fun opening hopening => ?_
  refine sound_bind (bodyItems_sound needsReturn) fun ns ts => ?_
  have hcontinue : ∀ returned : Parse (Option Node),
      Sound returned (fun found us _ => Returned true needsReturn found us) →
      Sound (returned >>= fun found => expect .rightBrace >>= fun _ =>
          pure (.methodBody (ns.takeWhile Node.isVariableDeclaration)
            (ns.dropWhile Node.isVariableDeclaration) found opening.location))
        fun n us _ => (Sequence (Rendering.Statement true) ns ts ∧
            (needsReturn = true → ∀ n ∈ ns, n.isReturn = false)) →
          Body true needsReturn n (opening :: (ts ++ us)) := by
    intro returned hreturned
    refine sound_bind hreturned fun found us => ?_
    refine sound_expect_bind (by decide) fun closing hclosing => sound_pure ?_
    rintro _ hfound ⟨hns, hreturns⟩
    rw [← List.takeWhile_append_dropWhile (p := Node.isVariableDeclaration) (l := ns)]
      at hns hreturns
    refine .mk hopening hns ?_ ?_ hreturns hfound hclosing
    · exact List.all_eq_true.1 List.all_takeWhile
    · intro n hn
      have hhead := List.head?_dropWhile_not Node.isVariableDeclaration ns
      rw [hn] at hhead
      simpa using hhead
  split
  · next hneeds => exact hcontinue _ (hneeds ▸ bodyReturn_sound)
  · next hneeds =>
    exact hcontinue _ (sound_pure fun _ => ⟨Bool.not_eq_true _ ▸ hneeds, rfl⟩)

theorem mainMethod_sound : Sound mainMethod fun n ts _ => MainMethod true n ts := by
  refine sound_expect_bind (by decide) fun start hstart => ?_
  refine sound_expect_bind (by decide) fun static hstatic => ?_
  refine sound_expect_bind (by decide) fun void hvoid => ?_
  refine sound_expect_bind (by decide) fun main hmain => ?_
  refine sound_expect_bind (by decide) fun opening hopening => ?_
  refine sound_expect_bind (by decide) fun type htype => ?_
  refine sound_expect_bind (by decide) fun left hleft => ?_
  refine sound_expect_bind (by decide) fun right hright => ?_
  refine sound_identifier_bind fun u name hu => ?_
  refine sound_expect_bind (by decide) fun closing hclosing => ?_
  refine sound_bind (methodBody_sound false) fun body ts => sound_pure ?_
  intro _ hbody
  rw [List.append_nil]
  exact .mk hstart hstatic hvoid hmain hopening htype hleft hright hu hclosing hbody

theorem mainClass_sound : Sound mainClass fun n ts _ => MainClass true n ts := by
  refine sound_expect_bind (by decide) fun t ht => sound_identifier_bind fun u name hu => ?_
  refine sound_expect_bind (by decide) fun opening hopening => ?_
  refine sound_bind mainMethod_sound fun method ts => ?_
  refine sound_expect_bind (by decide) fun closing hclosing => sound_pure ?_
  exact fun _ hmethod => .mk ht hu hopening hmethod hclosing

theorem attributes_sound :
    Sound attributes fun names ts _ => names = ts.map (·.text) ∧ ∀ t ∈ ts, Attribute t := by
  refine sound_fix (fun _ names ts _ =>
    names = ts.map (·.text) ∧ ∀ t ∈ ts, Attribute t) ?_ ()
  intro self hself _
  refine sound_current_bind fun t => ?_
  split
  · next ht =>
    simp only [isAttribute, Bool.and_eq_true, beq_iff_eq, bne_iff_ne] at ht
    refine sound_taken_bind ?_ fun hwf => sound_map (hself ()) ?_
    · rintro l rfl
      exact absurd ht.1 (show TokenKind.endOfFile ≠ .keyword by decide)
    · rintro names us _ ⟨rfl, hus⟩
      refine ⟨rfl, List.forall_mem_cons.2 ⟨?_, hus⟩⟩
      obtain ⟨hspells, hkind⟩ := hwf.spells_of_isReserved (by rw [ht.1]; rfl)
      exact ⟨t.terminal, hkind.trans ht.1, ht.2, hspells⟩
  · exact sound_pure fun _ _ => ⟨rfl, List.forall_mem_nil _⟩

theorem returnType_sound : Sound returnType fun type ts _ => ReturnType type ts := by
  refine sound_accept_bind (by decide) ?_ ?_
  · exact fun t ht => sound_pure fun _ => .void ht
  · refine typeName_sound.mono ?_
    rintro type _ _ ⟨t, us, rfl, htype, -⟩ _
    exact .named htype

theorem methodName_sound :
    Sound methodName fun name ts _ => ∃ t, ts = [t] ∧ MethodName name t := by
  refine sound_accept_bind (by decide) ?_ ?_
  · exact fun t ht => sound_pure fun _ => ⟨t, rfl, .main ht⟩
  · refine identifier_sound.mono ?_
    rintro name _ _ ⟨t, rfl, ht⟩ _
    exact ⟨t, rfl, .named ht⟩

theorem parameters_sound : Sound parameters fun ns ts _ => Parameters ns ts := by
  refine sound_expect_bind (by decide) fun opening hopening => sound_accept_bind (by decide) ?_ ?_
  · exact fun closing hclosing => sound_pure fun _ => .none hopening hclosing
  · have hdeclaration : Sound declaration fun n ts _ => Declaration n ts := by
      refine declaration_sound.mono ?_
      rintro n _ _ ⟨t, us, rfl, hn, -⟩
      exact hn
    refine sound_bind (commaSeparated_sound hdeclaration) fun ns ts => ?_
    refine sound_expect_bind (by decide) fun closing hclosing => sound_pure ?_
    exact fun _ hns _ => .some hopening hns hclosing

theorem method_sound : Sound method fun n ts _ => Method true n ts := by
  refine sound_expect_bind (by decide) fun t ht => ?_
  refine sound_bind attributes_sound fun names attributes => ?_
  refine sound_bind returnType_sound fun type ts => ?_
  refine sound_bind methodName_sound fun name s => ?_
  refine sound_bind parameters_sound fun found us => ?_
  refine sound_bind (methodBody_sound true) fun body vs => sound_pure ?_
  rintro _ hbody hfound ⟨u, rfl, hname⟩ htype ⟨rfl, hattributes⟩
  rw [List.append_nil, List.singleton_append]
  exact .mk ht hattributes htype hname hfound hbody

theorem baseClass_sound : Sound baseClass fun base ts _ => Base base ts := by
  refine sound_accept_bind (by decide) ?_ ?_
  · intro t ht
    refine sound_map identifier_sound ?_
    rintro name _ _ ⟨u, rfl, hu⟩
    exact .extends ht hu
  · exact sound_pure fun _ _ => .none

theorem memberVariable_sound :
    Sound memberVariable fun found ts _ => ∃ n, found = some n ∧
      Rendering.Statement true n ts ∧ n.isVariableDeclaration = true := by
  refine sound_bind statement_sound fun n s => keep_sound.mono ?_
  rintro found ts front ⟨rfl, hkind, rfl⟩ ⟨hn, -⟩
  rw [List.append_nil]
  exact ⟨n, rfl, hn, beq_iff_eq.2 hkind⟩

theorem memberVariables_sound :
    Sound memberVariables fun ns ts _ => Sequence (Rendering.Statement true) ns ts ∧
      ∀ n ∈ ns, n.isVariableDeclaration = true := by
  refine items_sound (fun ns ts => Sequence (Rendering.Statement true) ns ts ∧
    ∀ n ∈ ns, n.isVariableDeclaration = true) memberVariable_sound
    ⟨.nil, List.forall_mem_nil _⟩ ?_
  rintro found s others ts front _ ⟨n, rfl, hn, hkind⟩ ⟨hothers, hkinds⟩
  exact ⟨.cons hn hothers, List.forall_mem_cons.2 ⟨hkind, hkinds⟩⟩

theorem memberMethods_sound :
    Sound memberMethods fun ns ts _ => Sequence (Method true) ns ts := by
  apply items_sound (Sequence (Method true)) (sound_some method_sound) .nil
  rintro found s others ts front _ ⟨n, rfl, hn⟩ hothers
  exact .cons hn hothers

theorem classDeclaration_sound : Sound classDeclaration fun n ts _ => Class true n ts := by
  refine sound_expect_bind (by decide) fun t ht => sound_identifier_bind fun u name hu => ?_
  refine sound_bind baseClass_sound fun base ts => ?_
  refine sound_expect_bind (by decide) fun opening hopening => ?_
  refine sound_bind memberVariables_sound fun declarations us => ?_
  refine sound_bind memberMethods_sound fun methods vs => ?_
  refine sound_expect_bind (by decide) fun closing hclosing => sound_pure ?_
  rintro _ hmethods ⟨hdeclarations, hkinds⟩ hbase
  exact .mk ht hu hbase hopening hdeclarations hkinds hmethods hclosing

theorem topItem_sound : Sound topItem fun found ts _ =>
    (∃ t, ts = [t] ∧ t.Spells .semicolon ∧ found = none) ∨
      ∃ n, found = some n ∧ Class true n ts := by
  refine sound_accept_bind (by decide) ?_ ?_
  · exact fun t ht => sound_pure fun _ => .inl ⟨t, rfl, ht, rfl⟩
  · refine sound_check_bind ?_ ?_
    · refine sound_bind classDeclaration_sound fun n s => keep_sound.mono ?_
      rintro found ts front ⟨rfl, -, rfl⟩ hn _ _
      rw [List.append_nil]
      exact .inr ⟨n, rfl, hn⟩
    · refine sound_bind statement_sound fun n s => keep_sound.mono ?_
      rintro found ts front ⟨rfl, hkind, rfl⟩ ⟨hn, -⟩
      exact absurd hkind hn.kind_ne

theorem otherClasses_sound : Sound otherClasses fun ns ts _ => Classes true ns ts := by
  apply items_sound (Classes true) topItem_sound .nil
  rintro found s others ts front _ (⟨t, rfl, ht, rfl⟩ | ⟨n, rfl, hn⟩) hothers
  · exact .semicolon ht hothers
  · exact .cons hn hothers

/-- A program that is read without any error is a rendering of what it yields. -/
theorem program_sound : Sound program fun p ts _ => Rendering.Program true p ts := by
  refine sound_current_bind fun t => sound_atEnd_bind fun done => ?_
  split
  · exact sound_report_bind
  · refine sound_bind (recovering_sound (sound_some mainClass_sound)) fun first s => ?_
    refine sound_bind otherClasses_sound fun others ts => sound_pure ?_
    rintro front hothers ⟨n, rfl, hn⟩ hfront
    rw [List.append_nil] at hfront ⊢
    have hlocation : t.location = n.location := by
      subst hfront
      cases hn
      rfl
    rw [hlocation]
    exact .mk hn hothers

/-- If parsing a source reports no syntax error, its tokens, each once and in order, are a
rendering of the program that it yields. -/
theorem source_renders_program (source text : String)
    (h : (parseText source text).2.hadError = false) :
    Rendering.Program true (parseText source text).1 (sourceTokens source text) := by
  obtain ⟨p, trace, hrun⟩ := program_ok (sourceEnd source text) (sourceTokens source text)
  obtain ⟨hvalue, herror⟩ := parseText_of_run hrun
  have hclean : trace.errors = [] := by
    by_contra hne
    exact absurd (herror.2 hne) (by rw [h]; exact Bool.false_ne_true)
  obtain ⟨htokens, hreads⟩ := reads_of_run hrun hclean
  rw [List.append_nil] at htokens
  rw [hvalue, htokens]
  refine program_sound ?_ hreads
  rw [← htokens]
  exact Lexical.wellFormed_tokens source text.toList

/-- A source with semicolons missing and to spare, and with an `else` for the inner `if`. -/
def walk : String :=
  "class Walk \x7b public static void main(String[] a) \x7b Step s; int i; s = new Step() " ++
  "if (i < 2 + 3 * 4) if (!s.done(i)) i = (i); else a[0].length; \x7d \x7d; " ++
  "class Step extends Walk \x7b public boolean done(int n) \x7b Step[] t return true; \x7d \x7d;;"

theorem source_renders_program_extended_class :
    (parseText "Walk" walk).2.hadError = false ∧
      Rendering.Program true (parseText "Walk" walk).1 (sourceTokens "Walk" walk) := by
  have hclean : (parseText "Walk" walk).2.hadError = false := by decide +kernel
  exact ⟨hclean, source_renders_program "Walk" walk hclean⟩

end MiniJava.Grammar
