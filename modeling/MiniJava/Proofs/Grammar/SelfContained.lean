import MiniJava.Proofs.Grammar.Resilience
import MiniJava.Proofs.Grammar.Termination
/-!
# Self-contained statements and methods

A statement that ends in a semicolon or a closing brace is read the same alone and wherever
no `else` follows; so is a method.  Nothing but the last token of it is read without another
of its tokens ahead, so nothing after it is looked at but for that `else`.
-/

namespace MiniJava.Grammar

open Parse Relocatable

variable {α β : Type}

def Closed (ts : List Token) : Prop :=
  ∃ before t, ts = before ++ [t] ∧ (t.terminal = .semicolon ∨ t.terminal = .rightBrace)

theorem Closed.right {ts us : List Token} (h : Closed (ts ++ us)) (hne : us ≠ []) : Closed us := by
  obtain ⟨before, t, hsplit, ht⟩ := h
  obtain ⟨vs, u, rfl⟩ : ∃ vs u, us = vs ++ [u] :=
    ⟨_, _, (List.dropLast_append_getLast hne).symm⟩
  rw [← List.append_assoc] at hsplit
  obtain ⟨-, hu⟩ := List.append_inj' hsplit rfl
  obtain rfl : u = t := by simpa using hu
  exact ⟨vs, u, rfl, ht⟩

theorem Closed.tail {t : Token} {us : List Token} (h : Closed (t :: us)) (hne : us ≠ []) :
    Closed us := by
  rw [← List.singleton_append] at h
  exact h.right hne

/-- Over fewer than `n` closed tokens, a clean run to the end of the source is a clean run
wherever no `else` follows. -/
def SelfContained (n : Nat) (p : Parse α) : Prop :=
  ∀ ⦃fin ts a⦄, ts.length < n → (∀ t ∈ ts, t.WellFormed) → Closed ts → p.Reads fin ts [] a →
    ∀ finish rest, (frontOf finish rest).terminal ≠ .elseKeyword → p.Reads finish ts rest a

theorem ne_nil_of_reads {p : Parse α} (h : Advances p) {finish : Location} {ts rest : List Token}
    {a : α} (hp : p.Reads finish ts rest a) : ts ≠ [] := by
  have hvalue : (p.run finish (ts ++ rest)).value = .ok a := by rw [hp]
  have htokens := h _ rfl hvalue
  rwa [hp, Trace.tokens_ofTokens] at htokens

/-! ## Rules -/

section

variable {n : Nat} {p : Parse α} {f : α → Parse β} {x : Terminal}

/-- What comes before further tokens does not see the end. -/
theorem selfContained_bind [Relocatable α] (hp : ∀ shift, Simulates id shift p p)
    (hid : ∀ a : α, move id a = a) (hf : ∀ a, SelfContained n (f a))
    (hnext : ∀ a, Advances (f a)) : SelfContained n (p >>= f) := by
  intro fin ts b hlt hwf hclosed h finish rest hrest
  obtain ⟨s, t, a, rfl, hs, ht⟩ := reads_bind.1 h
  have hne : t ≠ [] := ne_nil_of_reads (hnext a) ht
  have hafter : (f a).Reads finish t rest b := by
    refine hf a ?_ (List.forall_mem_append.1 hwf).2 (hclosed.right hne) ht finish rest hrest
    rw [List.length_append] at hlt
    omega
  rw [List.append_nil] at hs
  exact reads_bind.2 ⟨s, t, a, rfl, reads_append finish hp hid hs hne rest, hafter⟩

theorem selfContained_after {f : Token → Parse β} (hx : x ≠ .unreserved)
    (hf : ∀ t, SelfContained n (f t)) (hnext : ∀ t, Advances (f t)) :
    SelfContained (n + 1) (expect x >>= f) := by
  intro fin ts b hlt hwf hclosed h finish rest hrest
  obtain ⟨t, us, rfl, ht, hus⟩ := (reads_expect_bind hx).1 h
  have hne : us ≠ [] := ne_nil_of_reads (hnext t) hus
  have hclosed' : Closed us := hclosed.tail hne
  have hafter : (f t).Reads finish us rest b :=
    hf t (Nat.lt_of_succ_lt_succ hlt) (List.forall_mem_cons.1 hwf).2 hclosed' hus finish rest hrest
  exact (reads_expect_bind hx).2 ⟨t, us, rfl, ht, hafter⟩

theorem selfContained_last {g : Token → β} (hx : x ≠ .unreserved) :
    SelfContained n (expect x >>= fun t => pure (g t)) := by
  intro fin ts b _ _ _ h finish rest _
  obtain ⟨t, us, rfl, ht, hus⟩ := (reads_expect_bind hx).1 h
  obtain ⟨rfl, rfl⟩ := reads_pure.1 hus
  exact (reads_expect_bind hx).2 ⟨t, [], rfl, ht, reads_pure.2 ⟨rfl, rfl⟩⟩

theorem selfContained_then {g : α → β} (hp : SelfContained n p) :
    SelfContained n (p >>= fun a => pure (g a)) := by
  intro fin ts b hlt hwf hclosed h finish rest hrest
  obtain ⟨s, t, a, rfl, hs, ht⟩ := reads_bind.1 h
  obtain ⟨rfl, rfl⟩ := reads_pure.1 ht
  rw [List.append_nil] at hlt hwf hclosed
  refine reads_bind.2 ⟨s, [], a, rfl, hp hlt hwf hclosed hs finish rest hrest, ?_⟩
  exact reads_pure.2 ⟨rfl, rfl⟩

theorem selfContained_current_bind {f : Token → Parse β} (hf : ∀ t, SelfContained n (f t))
    (hnext : Advances (current >>= f)) : SelfContained n (current >>= f) := by
  intro fin ts b hlt hwf hclosed h finish rest hrest
  have hne := ne_nil_of_reads hnext h
  obtain ⟨t, us, rfl⟩ := List.exists_cons_of_ne_nil hne
  rw [reads_current_bind] at h ⊢
  exact hf t hlt hwf hclosed h finish rest hrest

end

/-! ## Statements -/

section

variable {n : Nat}

/-- The `else` that a statement may be followed by belongs to it. -/
theorem selfContained_branches {g : Node → Node → Node} {g' : Node → Node}
    (h : SelfContained n statement) :
    SelfContained n (statement >>= fun first => accept .elseKeyword >>= fun more =>
      if more then statement >>= fun second => pure (g first second) else pure (g' first)) := by
  intro fin ts b hlt hwf hclosed hreads finish rest hrest
  obtain ⟨s, t, first, rfl, hs, ht⟩ := reads_bind.1 hreads
  rw [List.length_append] at hlt
  obtain ⟨hwfs, hwft⟩ := List.forall_mem_append.1 hwf
  rcases (reads_accept_bind (by decide)).1 ht with ⟨middle, us, rfl, hmiddle, hus⟩ | ⟨-, hnil⟩
  · rw [if_pos rfl] at hus
    have hsecond : Advances (statement >>= fun second => pure (g first second)) :=
      advances_bind advances_statement
    have hne := ne_nil_of_reads hsecond hus
    have hclosed' : Closed us := (hclosed.right (List.cons_ne_nil _ _)).tail hne
    rw [List.length_cons] at hlt
    have hus := selfContained_then h (by omega) (List.forall_mem_cons.1 hwft).2 hclosed' hus
      finish rest hrest
    rw [List.append_nil] at hs
    refine reads_bind.2 ⟨s, middle :: us, first, rfl, ?_, ?_⟩
    · exact reads_append finish (fun _ => simulates_statement) Node.relocate_id hs
        (List.cons_ne_nil _ _) rest
    · exact (reads_accept_bind (by decide)).2 (.inl ⟨middle, us, rfl, hmiddle, hus⟩)
  · obtain ⟨rfl, rfl⟩ := reads_pure.1 hnil
    rw [List.append_nil] at hclosed hs
    refine reads_bind.2 ⟨s, [], first, rfl, h (by omega) hwfs hclosed hs finish rest hrest, ?_⟩
    exact (reads_accept_bind (by decide)).2 (.inr ⟨hrest, reads_pure.2 ⟨rfl, rfl⟩⟩)

theorem inner_of_expression_reads {finish : Location} {ts : List Token} {node : Node}
    (hwf : ∀ t ∈ ts, t.WellFormed) (h : expression.Reads finish ts [] node) :
    ∀ t ∈ ts, t.Inner := by
  have hread : ∀ t ∈ (expression.run finish (ts ++ [])).trace.tokens, t.Inner := by
    refine consumes_expression (admits_forall fun _ ht => ht) _ ?_ rfl
    rwa [List.append_nil]
  rwa [h, Trace.tokens_ofTokens] at hread

theorem selfContained_expressionStatement : SelfContained n expressionStatement := by
  intro fin ts b _ hwf hclosed h finish rest _
  obtain ⟨s, t, found, rfl, hs, ht⟩ := reads_bind.1 h
  rcases (reads_accept_bind (by decide)).1 ht with ⟨semicolon, us, rfl, hsemicolon, hus⟩ | ⟨-, hnil⟩
  · obtain ⟨rfl, rfl⟩ := reads_pure.1 hus
    refine reads_bind.2 ⟨s, [semicolon], b, rfl, ?_, ?_⟩
    · exact reads_append finish (fun _ => simulates_expression) Node.relocate_id hs
        (List.cons_ne_nil _ _) rest
    · refine (reads_accept_bind (by decide)).2 (.inl ⟨semicolon, [], rfl, hsemicolon, ?_⟩)
      exact reads_pure.2 ⟨rfl, rfl⟩
  · obtain ⟨rfl, rfl⟩ := reads_pure.1 hnil
    obtain ⟨before, last, hsplit, hlast⟩ := hclosed
    have hinner := inner_of_expression_reads (List.forall_mem_append.1 hwf).1 hs last
    rw [List.append_nil] at hsplit
    rw [hsplit] at hinner
    have hinner := hinner (List.mem_append_right _ (List.mem_singleton_self _))
    rcases hlast with hlast | hlast
    · exact absurd hlast (hinner.ne rfl)
    · exact absurd hlast (hinner.ne rfl)

theorem simulates_blockItems (shift : Int) :
    Simulates id shift (blockItems statement) (blockItems statement) :=
  simulates_items (fun _ _ _ => rfl) simulates_toStatement (simulates_some simulates_statement)

theorem selfContained_expect_bind {x : Terminal} {f : Token → Parse β}
    (hf : ∀ t, SelfContained n (f t)) (hnext : ∀ t, Advances (f t)) :
    SelfContained n (expect x >>= f) :=
  selfContained_bind (fun _ => simulates_expect x) (fun _ => rfl) hf hnext

theorem selfContained_statementOf (h : SelfContained n statement) :
    SelfContained (n + 1) (statementOf statement) := by
  have hexpect : ∀ {x : Terminal} {f : Token → Parse Node}, x ≠ .unreserved →
      Advances (expect x >>= f) := fun hx => advances_bind (advances_expect hx)
  have hbody : ∀ {f : Node → Parse Node}, Advances (statement >>= f) :=
    advances_bind advances_statement
  have hcondition : ∀ {f : Node → Parse Node}, (∀ a, SelfContained n (f a)) →
      (∀ a, Advances (f a)) → SelfContained n (condition >>= f) :=
    selfContained_bind (fun _ => simulates_condition) Node.relocate_id
  have hclause : ∀ {x : Terminal} {f : Option Node → Parse Node}, (∀ a, SelfContained n (f a)) →
      (∀ a, Advances (f a)) → SelfContained n (clause x >>= f) :=
    selfContained_bind (fun _ => simulates_clause _) (move_id_option Node.relocate_id)
  have hstatement : Advances (statementOf statement) := by
    rw [← statement_eq]
    exact advances_statement
  refine selfContained_current_bind (fun t => ?_) hstatement
  split
  · refine selfContained_after (by decide) (fun t => ?_) fun _ => advances_seq fun _ => hbody
    exact hcondition (fun _ => selfContained_branches h) fun _ => hbody
  · refine selfContained_after (by decide) (fun t => ?_) fun _ => advances_seq fun _ => hbody
    exact hcondition (fun _ => selfContained_then h) fun _ => hbody
  · refine selfContained_after (by decide) (fun t => ?_) fun _ => hexpect (by decide)
    refine selfContained_expect_bind (fun _ => ?_) fun _ => advances_seq fun _ =>
      hexpect (by decide)
    refine hclause (fun _ => ?_) fun _ => hexpect (by decide)
    refine selfContained_expect_bind (fun _ => ?_) fun _ => advances_seq fun _ =>
      hexpect (by decide)
    refine hclause (fun _ => ?_) fun _ => hexpect (by decide)
    refine selfContained_expect_bind (fun _ => ?_) fun _ => advances_seq fun _ =>
      hexpect (by decide)
    refine hclause (fun _ => ?_) fun _ => hexpect (by decide)
    exact selfContained_expect_bind (fun _ => selfContained_then h) fun _ => hbody
  · refine selfContained_after (by decide) (fun t => ?_) fun _ => advances_seq fun _ =>
      hexpect (by decide)
    exact hcondition (fun _ => selfContained_last (by decide)) fun _ => hexpect (by decide)
  · refine selfContained_after (by decide) (fun t => ?_) fun _ => advances_seq fun _ =>
      hexpect (by decide)
    exact selfContained_bind (fun _ => simulates_expression) Node.relocate_id
      (fun _ => selfContained_last (by decide)) fun _ => hexpect (by decide)
  · refine selfContained_after (by decide) (fun t => ?_) fun _ => advances_seq fun _ =>
      hexpect (by decide)
    exact selfContained_bind simulates_blockItems (move_id_list Node.relocate_id)
      (fun _ => selfContained_last (by decide)) fun _ => hexpect (by decide)
  · split
    · exact selfContained_bind (fun _ => simulates_declaration) Node.relocate_id
        (fun _ => selfContained_last (by decide)) fun _ => hexpect (by decide)
    · exact selfContained_expressionStatement

theorem selfContained_statement (n : Nat) : SelfContained n statement := by
  induction n with
  | zero => exact fun _ _ _ hlt => absurd hlt (Nat.not_lt_zero _)
  | succ n ih =>
      rw [statement_eq]
      exact selfContained_statementOf ih

end

/-! ## Methods -/

theorem selfContained_methodBody (n : Nat) : SelfContained n (methodBody true) := by
  have hexpect : ∀ {x : Terminal} {f : Token → Parse Node}, x ≠ .unreserved →
      Advances (expect x >>= f) := fun hx => advances_bind (advances_expect hx)
  refine selfContained_expect_bind (fun t => ?_) fun _ => advances_seq fun _ =>
    advances_seq fun _ => hexpect (by decide)
  refine selfContained_bind (fun _ => simulates_items (fun _ _ _ => rfl) simulates_toStatement
    (simulates_some simulates_statement)) (move_id_list Node.relocate_id) (fun found => ?_) fun _ =>
      advances_seq fun _ => hexpect (by decide)
  exact selfContained_bind (fun _ => simulates_bodyReturn) (move_id_option Node.relocate_id)
    (fun _ => selfContained_last (by decide)) fun _ => hexpect (by decide)

theorem selfContained_method (n : Nat) : SelfContained n method := by
  have hbody : ∀ {g : Node → Node}, Advances (methodBody true >>= fun b => pure (g b)) :=
    advances_bind (advances_bind (advances_expect (by decide)))
  have hname : ∀ {q : Parse (List Node)} {g : List Node → Node → Node},
      Advances (q >>= fun found => methodBody true >>= fun b => pure (g found b)) :=
    advances_seq fun _ => hbody
  refine selfContained_expect_bind (fun t => ?_) fun _ => advances_seq fun _ =>
    advances_seq fun _ => advances_seq fun _ => hname
  refine selfContained_bind (fun _ => simulates_attributes) (move_strings id) (fun _ => ?_)
    fun _ => advances_seq fun _ => advances_seq fun _ => hname
  refine selfContained_bind (fun _ => simulates_returnType) (fun _ => rfl) (fun _ => ?_)
    fun _ => advances_seq fun _ => hname
  refine selfContained_bind (fun _ => simulates_methodName) (fun _ => rfl) (fun _ => ?_)
    fun _ => hname
  refine selfContained_bind (fun _ => simulates_parameters) (move_id_list Node.relocate_id)
    (fun _ => ?_) fun _ => hbody
  exact selfContained_then (selfContained_methodBody n)

end MiniJava.Grammar
