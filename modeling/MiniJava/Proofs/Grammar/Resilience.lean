import MiniJava.Proofs.Grammar.Containment
import MiniJava.Proofs.Grammar.Locality
import MiniJava.Proofs.Grammar.Source
import MiniJava.Tree.Equality
/-!
# Resilience

A class is found whatever stands before it, so long as the braces there are balanced: no
round of the list of classes passes over it, and what follows it does not change how it is
read.
-/

namespace MiniJava

/-- No brace is closed that is not open, and none is left open. -/
def Balanced (ts : List Token) : Prop :=
  (∀ n ≤ ts.length, 0 ≤ balance (ts.take n)) ∧ balance ts = 0

instance (ts : List Token) : Decidable (Balanced ts) := inferInstanceAs (Decidable (_ ∧ _))

/-- What is left at any point opens no more braces than it closes. -/
def Settled (ts : List Token) : Prop :=
  ∀ before after, ts = before ++ after → balance after ≤ 0

theorem Balanced.settled {ts : List Token} (h : Balanced ts) : Settled ts := by
  rintro before after rfl
  have hbefore := h.1 before.length (by simp)
  have htotal := h.2
  rw [List.take_left] at hbefore
  rw [balance_append] at htotal
  omega

theorem Settled.balance_le {ts : List Token} (h : Settled ts) : balance ts ≤ 0 := h [] ts rfl

theorem Settled.right {ts us : List Token} (h : Settled (ts ++ us)) : Settled us := by
  rintro before after rfl
  exact h (ts ++ before) after (List.append_assoc ..).symm

namespace Grammar

open Parse Relocatable

/-- What is read from the front of some tokens, if it passes no `class` outside braces, ends
before a `class` at which no brace is open. -/
theorem Sheltered.split {read rest before later : List Token} {c : Token} (h : Sheltered read)
    (hsplit : read ++ rest = before ++ c :: later) (hc : c.terminal = .classKeyword)
    (hne : before ≠ []) (hbefore : balance before ≤ 0) :
    ∃ left, before = read ++ left ∧ rest = left ++ c :: later := by
  rcases List.append_eq_append_iff.1 hsplit with ⟨left, hleft, hrest⟩ | ⟨passed, rfl, hpassed⟩
  · exact ⟨left, hleft, hrest⟩
  · cases passed with
    | nil => exact ⟨[], by simp, hpassed.symm⟩
    | cons u passed =>
        rw [List.cons_append, List.cons.injEq] at hpassed
        obtain ⟨rfl, -⟩ := hpassed
        have hopen := h before c passed rfl hc hne
        omega

section

variable {α : Type} [Relocatable α] {p : Parse α} {finish : Location}
  {ts rest : List Token} {a : α}

theorem eq_of_alike_id {ts ts' : List Token} (h : Alike id ts ts') : ts = ts' := by
  have hid : ∀ us : List Token, move id us = us := fun us => List.map_id us
  rwa [Alike, hid, hid] at h

omit [Relocatable α] in
theorem agree_append (finish finish' : Location) {n : Nat} (hn : n ≤ ts.length)
    (rest rest' : List Token) : Agree id n finish finish' (ts ++ rest) (ts ++ rest') where
  tokens := by
    rw [List.take_append_of_le_length hn, List.take_append_of_le_length hn]
  ends hlt := by
    rw [List.length_append] at hlt
    omega

/-- What is read before some token does not depend on what follows that token. -/
theorem reads_append (finish' : Location) (hp : ∀ shift, Simulates id shift p p)
    (hid : ∀ a : α, move id a = a) (h : p.Reads finish ts rest a) (hrest : rest ≠ [])
    (more : List Token) :
    p.Reads finish' ts (rest ++ more) a := by
  have hlength : ((ts ++ (rest ++ more)).length : Int) = (ts ++ rest).length + more.length := by
    simp only [List.length_append]
    omega
  have hpos := List.length_pos_iff.2 hrest
  have hagree : Agree id (ts.length + 1) finish finish' (ts ++ rest) (ts ++ (rest ++ more)) := by
    have hle : ts.length + 1 ≤ (ts ++ rest).length := by
      rw [List.length_append]
      omega
    have happend := agree_append finish finish' hle [] more
    rwa [List.append_nil, List.append_assoc] at happend
  obtain ⟨ts', rest', a', hsplit, hreads, htokens, hvalue⟩ := (hp _).reads h hlength hagree
  obtain rfl := eq_of_alike_id htokens
  rw [Alike, hid, hid] at hvalue
  rwa [hvalue, List.append_cancel_left hsplit]

/-- A failure before the end of some tokens does not depend on what follows them. -/
theorem fails_append (hp : ∀ shift, Simulates id shift p p)
    (h : (p.run finish (ts ++ rest)).value.isOk = false)
    (hlt : (p.run finish (ts ++ rest)).trace.tokens.length < ts.length) (finish' : Location)
    (rest' : List Token) :
    (p.run finish' (ts ++ rest')).value.isOk = false ∧
      (p.run finish' (ts ++ rest')).trace.tokens = (p.run finish (ts ++ rest)).trace.tokens := by
  have hlength : ((ts ++ rest').length : Int) =
      (ts ++ rest).length + (rest'.length - rest.length : Int) := by
    simp only [List.length_append]
    omega
  obtain ⟨hvalue, htrace⟩ := hp _ hlength (agree_append finish finish' hlt rest rest')
  constructor
  · revert h hvalue
    cases (p.run finish (ts ++ rest)).value <;> cases (p.run finish' (ts ++ rest')).value <;>
      simp [Alike, Except.isOk, Except.toBool]
  · have htokens := congrArg Trace.tokens htrace
    rw [Trace.tokens_move, Trace.tokens_move] at htokens
    exact (eq_of_alike_id htokens).symm

end

section

variable {finish : Location} {ts : List Token} {node : Node}

theorem classDeclaration_reads_append (h : classDeclaration.Reads finish ts [] node)
    (finish' : Location) (more : List Token) :
    (∃ c body, ts = c :: body ∧ c.terminal = .classKeyword) ∧ node.kind = .classDeclaration ∧
      classDeclaration.Reads finish' ts more node := by
  have hnodes : ∀ ns : List Node, move id ns = ns := move_id_list Node.relocate_id
  unfold classDeclaration at h ⊢
  rw [reads_expect_bind (by decide)] at h
  obtain ⟨c, body, rfl, hc, h⟩ := h
  refine ⟨⟨c, body, rfl, hc⟩, ?_⟩
  rw [reads_identifier_bind] at h
  obtain ⟨u, body, rfl, hu, h⟩ := h
  obtain ⟨ss, body, base, rfl, hbase, h⟩ := reads_bind.1 h
  rw [reads_expect_bind (by decide)] at h
  obtain ⟨opening, body, rfl, hopening, h⟩ := h
  obtain ⟨vs, body, locals, rfl, hvariables, h⟩ := reads_bind.1 h
  obtain ⟨ms, body, methods, rfl, hmethods, h⟩ := reads_bind.1 h
  rw [reads_expect_bind (by decide)] at h
  obtain ⟨closing, body, rfl, hclosing, h⟩ := h
  obtain ⟨rfl, rfl⟩ := reads_pure.1 h
  refine ⟨rfl, ?_⟩
  have hbase := reads_append finish' (fun _ => simulates_baseClass)
    (by rintro (_ | _) <;> rfl) hbase (by simp) more
  have hvariables := reads_append finish' (fun _ => simulates_memberVariables)
    hnodes hvariables (by simp) more
  have hmethods := reads_append finish' (fun _ => simulates_memberMethods)
    hnodes hmethods (by simp) more
  rw [List.append_nil] at hbase hvariables hmethods
  refine (reads_expect_bind (by decide)).2 ⟨c, _, rfl, hc, ?_⟩
  refine reads_identifier_bind.2 ⟨u, _, rfl, hu, ?_⟩
  refine reads_bind.2 ⟨ss, _, base, rfl, hbase, ?_⟩
  refine (reads_expect_bind (by decide)).2 ⟨opening, _, rfl, hopening, ?_⟩
  refine reads_bind.2 ⟨vs, _, locals, rfl, hvariables, ?_⟩
  refine reads_bind.2 ⟨ms, _, methods, rfl, hmethods, ?_⟩
  refine (reads_expect_bind (by decide)).2 ⟨closing, [], rfl, hclosing, ?_⟩
  exact reads_pure.2 ⟨rfl, rfl⟩

end

section

variable {before after body : List Token} {c : Token}

/-- A round that starts before a class, where no brace is open at the class, ends before it. -/
theorem recovering_split (finish : Location) {item : Parse (Option Node)}
    (hitem : ∀ front, ConsumesAt front item Sheltered) (hadvance : Advances item)
    (hwf : ∀ t ∈ before ++ c :: after, t.WellFormed) (hc : c.terminal = .classKeyword)
    (hne : before ≠ []) (hbefore : balance before ≤ 0) :
    ∃ found trace left, (recovering toStatement item).run finish (before ++ c :: after) =
      ⟨.ok found, trace, left ++ c :: after⟩ ∧ before = trace.tokens ++ left ∧
        trace.tokens ≠ [] := by
  have hahead : before ++ c :: after ≠ [] := List.append_ne_nil_of_left_ne_nil hne _
  obtain ⟨found, trace, rest, hround, htokens⟩ := recovering_advances (hadvance _) hahead
  have hsheltered := consumes_round (hitem _) hwf (rfl : frontOf finish _ = _)
  have hsplit := (recovering toStatement item).conserves finish (before ++ c :: after)
  rw [hround] at hsheltered hsplit
  obtain ⟨left, hleft, rfl⟩ := hsheltered.split hsplit hc hne hbefore
  exact ⟨found, trace, left, hround, hleft, htokens⟩

theorem otherClasses_run {finish : Location} {ahead rest : List Token} {found : Option Node}
    {others : List Node} {trace trace' : Trace}
    (hround : (recovering toStatement topItem).run finish ahead = ⟨.ok found, trace, rest⟩)
    (htokens : trace.tokens ≠ [])
    (hothers : otherClasses.run finish rest = ⟨.ok others, trace', []⟩) :
    otherClasses.run finish ahead = ⟨.ok (found.toList ++ others), trace ++ trace', []⟩ := by
  have hne : ahead ≠ [] := by
    rintro rfl
    exact absurd (length_rest_lt hround htokens) (Nat.not_lt_zero _)
  exact items_run_ok hne rfl hround htokens hothers

/-- From anywhere before a class where no brace is open, the list of classes gets to the
class. -/
theorem otherClasses_find {finish : Location} {later : List Token} {node : Node}
    (hsettled : Settled before)
    (hwf : ∀ t ∈ before ++ c :: (body ++ later), t.WellFormed) (hc : c.terminal = .classKeyword)
    (hclass : topItem.Reads finish (c :: body) later (some node)) :
    ∃ found trace, otherClasses.run finish (before ++ c :: (body ++ later)) =
      ⟨.ok found, trace, []⟩ ∧ node ∈ found := by
  induction hn : before.length using Nat.strongRecOn generalizing before with
  | ind n ih =>
      by_cases hne : before = []
      · subst hne
        have hround : (recovering toStatement topItem).Reads finish (c :: body) later (some node) :=
          reads_recovering.2 hclass
        obtain ⟨others, trace, hothers⟩ := otherClasses_ok finish later
        exact ⟨_, _, otherClasses_run hround (List.cons_ne_nil _ _) hothers, List.mem_cons_self ..⟩
      · obtain ⟨found, trace, left, hround, rfl, htokens⟩ :=
          recovering_split finish (fun _ => consumes_topItem _) advances_topItem hwf hc hne
            hsettled.balance_le
        have hpos := List.length_pos_iff.2 htokens
        rw [List.length_append] at hn
        rw [List.append_assoc] at hwf
        obtain ⟨others, trace', hothers, hmem⟩ := ih left.length (by omega) hsettled.right
          (List.forall_mem_append.1 hwf).2 rfl
        exact ⟨_, _, otherClasses_run hround htokens hothers, List.mem_append_right _ hmem⟩

end

/-- A class is among those of a source if the tokens before it, of which there are some,
have balanced braces, whatever else they and those after it are. -/
theorem parseText_finds_class {source text : String} {before ts after : List Token}
    {finish : Location} {node : Node} (htokens : sourceTokens source text = before ++ ts ++ after)
    (hne : before ≠ []) (hbalanced : Balanced before)
    (hvalue : (classDeclaration.run finish ts).value = .ok node)
    (hrest : (classDeclaration.run finish ts).rest = [])
    (hclean : (classDeclaration.run finish ts).trace.errors = []) :
    node ∈ (parseText source text).1.classes := by
  have hwf := Lexical.wellFormed_tokens source text.toList
  rw [← sourceTokens, htokens] at hwf
  have hrun : classDeclaration.run finish ts =
      ⟨.ok node, (classDeclaration.run finish ts).trace, []⟩ := by
    rw [← hvalue, ← hrest]
  obtain ⟨hts, hreads⟩ := reads_of_run hrun hclean
  rw [List.append_nil] at hts
  rw [← hts] at hreads
  obtain ⟨⟨c, body, rfl, hc⟩, hkind, hclass⟩ :=
    classDeclaration_reads_append hreads (sourceEnd source text) after
  rw [List.append_assoc, List.cons_append] at htokens hwf
  have hmain : ∀ front, ConsumesAt front (some <$> mainClass) Sheltered :=
    fun front => consumesAt_map ((consumes_mainClass front).mono Headed.sheltered)
  obtain ⟨first, trace, left, hround, rfl, htaken⟩ :=
    recovering_split (sourceEnd source text) hmain advances_mainClass hwf hc hne
      (Int.le_of_eq hbalanced.2)
  rw [List.append_assoc] at hwf
  obtain ⟨others, trace', hothers, hmem⟩ :=
    otherClasses_find hbalanced.settled.right (List.forall_mem_append.1 hwf).2 hc
      (topItem_reads hclass ⟨c, body, rfl, hc⟩ hkind)
  have hprogram := program_run (List.append_ne_nil_of_left_ne_nil hne _) hround hothers
  rw [← htokens] at hprogram
  rw [(parseText_of_run hprogram).1]
  exact List.mem_append_right _ hmem

/-- What a production ends with can be compared. -/
instance : DecidableEq (Except SyntaxError Node)
  | .ok n, .ok m => decidable_of_iff (n = m) ⟨congrArg _, Except.ok.inj⟩
  | .error e, .error e' => decidable_of_iff (e = e') ⟨congrArg _, Except.error.inj⟩
  | .ok _, .error _ => .isFalse nofun
  | .error _, .ok _ => .isFalse nofun

/-- A class between a broken one and a broken rest. -/
def rubble : String :=
  "class \x7b ( \x7b return \x7d class = \x7d class Step \x7b int n; \x7d \x7d \x7b class"

theorem parseText_finds_class_in_rubble :
    let tokens := sourceTokens "Rubble" rubble
    let step : Node := .classDeclaration "Step" none
      [.variableDeclaration "int" "n" ⟨⟨1, 45⟩, "Rubble"⟩] [] ⟨⟨1, 32⟩, "Rubble"⟩
    tokens = tokens.take 9 ++ (tokens.drop 9).take 7 ++ tokens.drop 16 ∧
      Balanced (tokens.take 9) ∧ step ∈ (parseText "Rubble" rubble).1.classes := by
  intro tokens step
  have htokens : tokens = tokens.take 9 ++ (tokens.drop 9).take 7 ++ tokens.drop 16 := by
    decide +kernel
  have hbalanced : Balanced (tokens.take 9) := by decide +kernel
  have hvalue : (classDeclaration.run ⟨.origin, "Rubble"⟩ ((tokens.drop 9).take 7)).value =
      .ok step := by
    decide +kernel
  refine ⟨htokens, hbalanced, parseText_finds_class htokens ?_ hbalanced hvalue ?_ ?_⟩
  · decide +kernel
  · decide +kernel
  · decide +kernel

end Grammar

end MiniJava
