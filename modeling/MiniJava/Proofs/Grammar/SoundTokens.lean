import MiniJava.Proofs.Grammar.Complaint
import MiniJava.Proofs.Grammar.Source
import MiniJava.Proofs.Lexical.Reals
import MiniJava.Tree.Equality
/-!
# Sound tokens

Every token that a source yields is what its kind says, and so nothing that a parser is asked for
meets a word that the grammar has no branch for.
-/

namespace MiniJava

/-! ## Lexemes by their kind -/

/-- Words of the language are as the lexicon has them and carry no value.  Literals are in no
lexicon and carry the value of their text.  Nothing else but the end of a source is met. -/
structure Lexeme.Sound (x : Lexeme) : Prop where
  known : x.kind ≠ .unknown
  word : x.kind = .identifier ∨ x.kind.isReserved = true →
    x = Lexicon.classify x.text ∧ x.payload = .none
  literal : x.kind.isLiteral = true → x.terminal = .unreserved ∧ x.precedence = -1
  integer : x.kind = .integer → ∃ n : Nat, x.payload = .int n
  real : x.kind = .real → ∃ r, x.payload = .real r ∧ r.isFinite = true ∧ r.negative = false
  char : x.kind = .charLiteral →
    ∃ c : Char, x.text = String.singleton c ∧ x.payload = .int c.toNat
  string : x.kind = .stringLiteral → x.payload = .text x.text
  ending : x.kind = .endOfFile → x = .endOfFile

theorem Lexicon.payload_classify (word : String) : (classify word).payload = .none := by
  unfold classify
  split <;> rfl

theorem Lexicon.sound_classify (word : String) : (classify word).Sound := by
  have hne : ∀ k : TokenKind, ¬ (k = .identifier ∨ k.isReserved = true) →
      (classify word).kind ≠ k := by
    rintro k hk rfl
    exact hk (kind_classify word)
  exact {
    known := hne _ (by decide)
    word := fun _ => ⟨by rw [classify_text], payload_classify word⟩
    literal := fun h =>
      absurd (TokenKind.isLiteral_eq_false (kind_classify word)) (by rw [h]; decide)
    integer := fun h => absurd h (hne _ (by decide))
    real := fun h => absurd h (hne _ (by decide))
    char := fun h => absurd h (hne _ (by decide))
    string := fun h => absurd h (hne _ (by decide))
    ending := fun h => absurd h (hne _ (by decide)) }

theorem Lexeme.sound_literal {kind : TokenKind} {text : String} {payload : Payload}
    (hkind : kind.isLiteral = true)
    (hinteger : kind = .integer → ∃ n : Nat, payload = .int n)
    (hreal : kind = .real → ∃ r, payload = .real r ∧ r.isFinite = true ∧ r.negative = false)
    (hchar : kind = .charLiteral →
      ∃ c : Char, text = String.singleton c ∧ payload = .int c.toNat)
    (hstring : kind = .stringLiteral → payload = .text text) :
    (literal kind text payload).Sound where
  known := by rintro rfl; exact absurd hkind (by decide)
  word h := absurd (hkind.symm.trans (TokenKind.isLiteral_eq_false h)) (by decide)
  literal _ := ⟨rfl, rfl⟩
  integer := hinteger
  real := hreal
  char := hchar
  string := hstring
  ending := by rintro rfl; exact absurd hkind (by decide)

theorem Lexeme.WellFormed.sound {x : Lexeme} (h : x.WellFormed) (hp : x.Printable) : x.Sound := by
  cases h with
  | word text => exact Lexicon.sound_classify text
  | integer text n => exact sound_literal rfl (fun _ => ⟨n, rfl⟩) nofun nofun nofun
  | real text r => exact sound_literal rfl nofun (fun _ => ⟨r, rfl, hp r rfl⟩) nofun nofun
  | char c => exact sound_literal rfl nofun nofun (fun _ => ⟨c, rfl, rfl⟩) nofun
  | string text => exact sound_literal rfl nofun nofun nofun fun _ => rfl

theorem Lexeme.sound_endOfFile : Lexeme.endOfFile.Sound where
  known := by decide
  word h := absurd h (by decide)
  literal h := absurd h (by decide)
  integer := nofun
  real := nofun
  char := nofun
  string := nofun
  ending _ := rfl

theorem Lexeme.Sound.text_of_char {t : Token} (h : t.toLexeme.Sound) {c : Char}
    (hc : Grammar.literalValue? t = some (.char c)) :
    t.kind = .charLiteral ∧ t.text = String.singleton c := by
  have hkind : t.kind = .charLiteral ∧ ∃ code, t.payload = .int code ∧ c = .ofNat code.toNat := by
    unfold Grammar.literalValue? at hc
    split at hc <;> cases hc
    exact ⟨by assumption, _, by assumption, rfl⟩
  obtain ⟨hchar, code, hcode, rfl⟩ := hkind
  obtain ⟨c, htext, hpayload⟩ := h.char hchar
  obtain rfl := Payload.int.inj (hcode.symm.trans hpayload)
  exact ⟨hchar, by rw [htext, Int.toNat_natCast, Char.ofNat_toNat]⟩

theorem Lexeme.IsStrayKeyword.message {x : Lexeme} (h : x.IsStrayKeyword) :
    (Grammar.Complaint.unsupported (.inExpression x)).message =
      "unsupported construct: keyword '" ++ x.text ++ "' in an expression" := by
  have hdescribe : x.describe = "keyword" ++ " '" ++ x.text ++ "'" := by
    rw [describe, h.1]
    rfl
  show "unsupported construct: " ++ (x.describe ++ " in an expression") = _
  rw [hdescribe]
  apply String.toList_injective
  simp [String.toList_append]

namespace Grammar

open Lexical Parse

theorem sourceToken_cases (source text : String) (n : Nat) :
    sourceToken source text n ∈ sourceTokens source text ∨
      sourceToken source text n = .endOfFile (sourceEnd source text) := by
  rw [sourceToken_eq]
  cases hdrop : (sourceTokens source text).drop n with
  | nil => exact .inr rfl
  | cons t rest =>
      refine .inl (List.mem_of_mem_drop (i := n) ?_)
      rw [hdrop]
      exact List.mem_cons_self ..

theorem sound_sourceToken (source text : String) (n : Nat) :
    (sourceToken source text n).toLexeme.Sound ∧ (sourceToken source text n).Met := by
  rcases sourceToken_cases source text n with h | h
  · have hwf := wellFormed_tokens source text.toList _ h
    exact ⟨Lexeme.WellFormed.sound hwf (printable_tokens source text.toList _ h), .inl hwf⟩
  · rw [h]
    exact ⟨Lexeme.sound_endOfFile, .inr rfl⟩

/-! ## Calls -/

def Parser.answer (q : Parser) (c : Call) : Outcome (List Node) := c.trees.run q.finish q.ahead

theorem complains_trees (c : Call) : Complains True c.trees := by
  cases c with
  | program => exact complains_map complains_program
  | statement => exact complains_map complains_statement
  | expression => exact complains_map complains_expression

/-- The literals in the trees that a call yields are tokens that it read. -/
theorem ensures_trees (c : Call) :
    Ensures c.trees fun ns s => ∀ n ∈ ns, ∀ value l, .literal value l ∈ n.nodes →
      ∃ t ∈ Trace.tokens s, literalValue? t = some value ∧ t.location = l := by
  cases c with
  | program =>
      refine ensures_map (ensures_program.mono ?_)
      rintro p _ ⟨first, others, u, v, hclasses, rfl, hfirst, hothers⟩ n hn value l hm
      rw [Trace.tokens_append]
      rcases List.mem_append.1 (hclasses ▸ hn) with hn | hn
      · obtain ⟨t, ht, hvalue⟩ := hfirst.literal_mem hn hm
        exact ⟨t, List.mem_append_left _ ht, hvalue⟩
      · obtain ⟨t, ht, hvalue⟩ := hothers.literal_mem hn hm
        exact ⟨t, List.mem_append_right _ ht, hvalue⟩
  | statement =>
      exact ensures_map (deriving_statement.mono fun _ _ h _ hn _ _ hm => h.literal_mem hn hm)
  | expression =>
      exact ensures_map (deriving_expression.mono fun _ _ h _ hn _ _ hm => h.literal_mem hn hm)

/-- Every token of a source is sound: it has a precedence just if it is an operator between two
operands, and if it is a literal then reading it does not fail.  Whatever has been asked for, the
one construct that a call finds not supported is a keyword other than those that an expression may
begin with, and a character in the trees that it yields is that of a character literal of the
source, in its place. -/
theorem tokens_sound (source text : String) :
    (∀ n, let t := sourceToken source text n
      t.toLexeme.Sound ∧ (0 ≤ t.precedence ↔ (binaryOperator? t.terminal).isSome = true) ∧
        (t.kind ∈ literalKinds → ∀ finish rest, ∃ value,
          literal.run finish (t :: rest) = ⟨.ok (.literal value t.location), [.read t], rest⟩)) ∧
    ∀ (calls : List Call) (c : Call),
      let q := (Parser.ofStream (.ofText source text)).after calls
      (∀ e ∈ (q.answer c).errors, e.isUnsupported = true → ∃ n, let t := sourceToken source text n
        t.IsStrayKeyword ∧ e.location = t.location ∧
          e.message = "unsupported construct: keyword '" ++ t.text ++ "' in an expression") ∧
      ∀ trees, (q.answer c).value = .ok trees → ∀ tree ∈ trees, ∀ ch l,
        .literal (.char ch) l ∈ tree.nodes → ∃ n, let t := sourceToken source text n
          t.kind = .charLiteral ∧ t.text = String.singleton ch ∧ t.location = l := by
  refine ⟨fun n => ?_, fun calls c => ?_⟩
  · intro t
    obtain ⟨hsound, hmet⟩ := sound_sourceToken source text n
    refine ⟨hsound, precedence_nonneg_iff hmet, fun ht => ?_⟩
    rcases hmet with hwf | hend
    · exact literal_run hwf ht
    · rw [show t.kind = .endOfFile from congrArg Lexeme.kind hend] at ht
      exact absurd ht (by decide)
  · intro q
    obtain ⟨ahead, hfaces, hsuffix⟩ := Parser.faces_after (faces_ofText source text) calls
    have hanswer : q.answer c = c.trees.run (sourceEnd source text) ahead := by
      rw [Parser.answer, Parser.finish_of_faces hfaces, Parser.ahead_of_faces hfaces]
    have hwf : ∀ t ∈ ahead, t.WellFormed := fun t ht =>
      wellFormed_tokens source text.toList t (hsuffix.subset ht)
    rw [hanswer]
    refine ⟨fun e he hunsupported => ?_, fun trees hvalue tree htree ch l hm => ?_⟩
    · obtain ⟨later, hlater, habout⟩ :=
        (complains_trees c).about_of_isUnsupported hwf e he hunsupported
      obtain ⟨n, hn⟩ := exists_sourceToken_of_suffix (hlater.trans hsuffix)
      rw [← hn] at habout
      obtain ⟨hstray, rfl⟩ := habout.eq_inExpression hunsupported
      exact ⟨n, hstray, rfl, hstray.message⟩
    · obtain ⟨t, ht, hchar, hplace⟩ :=
        ensures_trees c _ rfl hvalue tree htree (.char ch) l hm
      have hread := List.prefix_append
        (c.trees.run (sourceEnd source text) ahead).trace.tokens
        (c.trees.run (sourceEnd source text) ahead).rest
      rw [c.trees.conserves] at hread
      obtain ⟨n, rfl⟩ := exists_sourceToken_of_mem (hsuffix.subset (hread.subset ht))
      obtain ⟨hkind, htext⟩ := (sound_sourceToken source text n).1.text_of_char hchar
      exact ⟨n, hkind, htext, hplace⟩

/-- A block with a keyword in place of an expression, and a character literal after it. -/
theorem tokens_sound_stray_class :
    let text := "\x7b x = class; y = 'c'; \x7d"
    let r := (Parser.ofStream (.ofText "Stray" text)).answer .statement
    (∃ e ∈ r.errors, e.isUnsupported = true ∧ ∃ n, let t := sourceToken "Stray" text n
      t.IsStrayKeyword ∧ e.location = t.location ∧
        e.message = "unsupported construct: keyword '" ++ t.text ++ "' in an expression") ∧
      ∃ tree l, r.value = .ok [tree] ∧ .literal (.char 'c') l ∈ tree.nodes ∧
        ∃ n, let t := sourceToken "Stray" text n
          t.kind = .charLiteral ∧ t.text = String.singleton 'c' ∧ t.location = l := by
  intro text r
  obtain ⟨hstray, hchar⟩ := (tokens_sound "Stray" text).2 [] .statement
  have herrors : ∃ e ∈ r.errors, e.isUnsupported = true := by decide +kernel
  obtain ⟨e, he, hunsupported⟩ := herrors
  refine ⟨⟨e, he, hunsupported, hstray e he hunsupported⟩, ?_⟩
  let place (column : Nat) : Location := ⟨⟨1, column⟩, "Stray"⟩
  let operand : Node := .literal (.char 'c') (place 18)
  let assignment : Node := .binary .assign (.reference "y" none (place 14)) operand (place 16)
  let tree : Node := .block [assignment] (place 1)
  have hvalue : r.value = .ok [tree] := by
    have hsome : r.value.toOption = some [tree] := by decide +kernel
    cases h : r.value with
    | error e => rw [h] at hsome; cases hsome
    | ok trees => rw [h] at hsome; exact congrArg Except.ok (Option.some.inj hsome)
  have hoperand : operand ∈ assignment.nodes :=
    Node.mem_nodes_of_mem_children (List.mem_cons_of_mem _ (List.mem_cons_self ..))
      operand.mem_nodes_self
  have hmem : operand ∈ tree.nodes :=
    Node.mem_nodes_of_mem_children (List.mem_cons_self ..) hoperand
  exact ⟨tree, _, hvalue, hmem, hchar _ hvalue _ (List.mem_cons_self ..) _ _ hmem⟩

end Grammar

end MiniJava
