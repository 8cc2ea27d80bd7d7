import MiniJava.Proofs.Grammar.Complaint
import MiniJava.Proofs.Grammar.Termination
/-!
# How expressions are grouped

An expression is read as if the chain of its operands and operators were read first and grouped
afterwards.  A chain can be grouped in one way only: to the left of an operator stands nothing that
binds less tightly, and to its right only what binds more tightly.
-/

namespace MiniJava.Grammar

open Parse (current advance fail frontOf run_bind_of_error run_bind_of_ok run_bind_cases)

/-! ## Chains -/

structure Link where
  operator : Token
  operand : Node

structure Chain where
  first : Node
  links : List Link

namespace Chain

def extend (c : Chain) (links : List Link) : Chain := ⟨c.first, c.links ++ links⟩

def join (c : Chain) (t : Token) (d : Chain) : Chain := c.extend (⟨t, d.first⟩ :: d.links)

theorem extend_nil (c : Chain) : c.extend [] = c := by
  rw [extend, List.append_nil]

theorem extend_extend (c : Chain) (links more : List Link) :
    (c.extend links).extend more = c.extend (links ++ more) := by
  rw [extend, extend, extend, List.append_assoc]

end Chain

/-- Reads operators with an operand after each, as long as there are operators. -/
def readLinks (operand : Parse Node) (finish : Location) :
    List Token → Outcome (List Link)
  | [] => ⟨.ok [], [], []⟩
  | t :: ahead =>
    if t.precedence < 0 then ⟨.ok [], [], t :: ahead⟩
    else
      match _hrun : operand.run finish ahead with
      | ⟨.error e, trace, rest⟩ => ⟨.error e, .read t :: trace, rest⟩
      | ⟨.ok n, trace, rest⟩ =>
        let later := readLinks operand finish rest
        ⟨later.value.map (⟨t, n⟩ :: ·), .read t :: (trace ++ later.trace), later.rest⟩
  termination_by ahead => ahead.length
  decreasing_by
    have hahead := congrArg List.length (operand.conserves finish ahead)
    rw [_hrun, List.length_append] at hahead
    simp only [List.length_cons] at hahead ⊢
    omega

def readChain (operand : Parse Node) (finish : Location) (ahead : List Token) : Outcome Chain :=
  (operand.run finish ahead).andThen fun first rest =>
    let o := readLinks operand finish rest
    ⟨o.value.map (⟨first, ·⟩), o.trace, o.rest⟩

/-! ## The grouping of a chain -/

/-- A node groups a chain; its precedence is that of its operator if it is no operand. -/
inductive Groups : Option Int → Node → Chain → Prop
  | operand (n : Node) : Groups none n ⟨n, []⟩
  | operator {p q : Option Int} {op : BinaryOperator} {left right : Node} {t : Token} {c d : Chain}
      (hleft : Groups p left c) (hright : Groups q right d) (hp : ∀ x ∈ p, t.precedence ≤ x)
      (hq : ∀ x ∈ q, t.precedence < x) (hop : binaryOperator? t.terminal = some op) :
      Groups (some t.precedence) (.binary op left right t.location) (c.join t d)

namespace Groups

variable {p q : Option Int} {m n : Node} {c : Chain}

/-- No operator of a chain binds less tightly than the one at the root. -/
theorem le_precedence {least : Int} (h : Groups p n c) (hp : ∀ x ∈ p, least ≤ x) :
    ∀ l ∈ c.links, least ≤ l.operator.precedence := by
  induction h with
  | operand => exact List.forall_mem_nil _
  | @operator p q op left right t c d _ _ hleft hright _ ihleft ihright =>
      have ht : least ≤ t.precedence := hp _ rfl
      have hbefore := ihleft fun x hx => Int.le_trans ht (hleft x hx)
      have hafter := ihright fun x hx => Int.le_trans ht (Int.le_of_lt (hright x hx))
      exact List.forall_mem_append.2 ⟨hbefore, List.forall_mem_cons.2 ⟨ht, hafter⟩⟩

end Groups

/-- The last of the loosest operators of a chain is in one place only. -/
theorem links_split_unique {ls rs ls' rs' : List Link} {a b : Link}
    (h : ls ++ a :: rs = ls' ++ b :: rs')
    (hls : ∀ l ∈ ls, a.operator.precedence ≤ l.operator.precedence)
    (hrs : ∀ l ∈ rs, a.operator.precedence < l.operator.precedence)
    (hls' : ∀ l ∈ ls', b.operator.precedence ≤ l.operator.precedence)
    (hrs' : ∀ l ∈ rs', b.operator.precedence < l.operator.precedence) :
    ls = ls' ∧ a = b ∧ rs = rs' := by
  rcases List.append_eq_append_iff.1 h with ⟨between, rfl, hbetween⟩ | ⟨between, rfl, hbetween⟩
  · cases between with
    | nil =>
        obtain ⟨rfl, rfl⟩ := List.cons.inj hbetween
        exact ⟨(List.append_nil _).symm, rfl, rfl⟩
    | cons m between =>
        obtain ⟨rfl, rfl⟩ := List.cons.inj hbetween
        have hab := hrs b (by simp)
        have hba := hls' a (by simp)
        omega
  · cases between with
    | nil =>
        obtain ⟨rfl, rfl⟩ := List.cons.inj hbetween
        exact ⟨List.append_nil _, rfl, rfl⟩
    | cons m between =>
        obtain ⟨rfl, rfl⟩ := List.cons.inj hbetween
        have hba := hrs' a (by simp)
        have hab := hls b (by simp)
        omega

namespace Groups

variable {p q : Option Int} {m n : Node} {c : Chain}

/-- A chain is grouped in one way only. -/
theorem unique (hn : Groups p n c) (hm : Groups q m c) : m = n := by
  induction hn generalizing q m with
  | operand =>
      generalize hc : (⟨_, []⟩ : Chain) = c at hm
      cases hm with
      | operand => exact (Chain.mk.inj hc).1.symm
      | operator => exact absurd (Chain.mk.inj hc).2.symm (by simp)
  | @operator p q op left right t c d hleft hright hp hq hop ihleft ihright =>
      generalize hc : c.join t d = e at hm
      cases hm with
      | operand => exact absurd (Chain.mk.inj hc).2 (by simp)
      | @operator p' q' op' left' right' t' c' d' hleft' hright' hp' hq' hop' =>
          obtain ⟨hfirst, hlinks⟩ := Chain.mk.inj hc
          obtain ⟨hbefore, hlink, hafter⟩ := links_split_unique hlinks
            (hleft.le_precedence hp) (hright.le_precedence hq)
            (hleft'.le_precedence hp') (hright'.le_precedence hq')
          obtain ⟨rfl, hnext⟩ := Link.mk.inj hlink
          obtain rfl : c = c' := Chain.mk.injEq .. ▸ ⟨hfirst, hbefore⟩
          obtain rfl : d = d' := Chain.mk.injEq .. ▸ ⟨hnext, hafter⟩
          obtain rfl := ihleft hleft'
          obtain rfl := ihright hright'
          obtain rfl := Option.some.inj (hop.symm.trans hop')
          rfl

end Groups

/-! ## Runs -/

section

variable {operand : Parse Node} {finish : Location} {ahead rest : List Token} {t : Token}
  {trace : Trace} {e : SyntaxError} {n : Node}

theorem readLinks_stop (h : (frontOf finish ahead).precedence < 0) :
    readLinks operand finish ahead = ⟨.ok [], [], ahead⟩ := by
  cases ahead with
  | nil => rw [readLinks]
  | cons t ahead =>
      rw [readLinks]
      exact if_pos h

theorem readLinks_error (ht : 0 ≤ t.precedence)
    (h : operand.run finish ahead = ⟨.error e, trace, rest⟩) :
    readLinks operand finish (t :: ahead) = ⟨.error e, .read t :: trace, rest⟩ := by
  rw [readLinks, if_neg (Int.not_lt.2 ht)]
  split
  · next hrun =>
    obtain ⟨he, rfl, rfl⟩ := Outcome.mk.inj (hrun.symm.trans h)
    obtain rfl := Except.error.inj he
    rfl
  · next hrun => cases congrArg Outcome.value (hrun.symm.trans h)

theorem readLinks_ok (ht : 0 ≤ t.precedence)
    (h : operand.run finish ahead = ⟨.ok n, trace, rest⟩) :
    readLinks operand finish (t :: ahead) =
      ⟨(readLinks operand finish rest).value.map (⟨t, n⟩ :: ·),
        .read t :: (trace ++ (readLinks operand finish rest).trace),
        (readLinks operand finish rest).rest⟩ := by
  rw [readLinks, if_neg (Int.not_lt.2 ht)]
  split
  · next hrun => cases congrArg Outcome.value (hrun.symm.trans h)
  · next hrun =>
    obtain ⟨hn, rfl, rfl⟩ := Outcome.mk.inj (hrun.symm.trans h)
    obtain rfl := Except.ok.inj hn
    rfl

/-! ## Climbing -/

theorem climb_eq (operand : Parse Node) (b : Int × Node) :
    climb operand b = climbBody operand (climb operand) b := by
  have hguarding : Guarding (climbBody operand) :=
    fun n _ _ hself b => sameBelow_climbBody (sameBelow_refl n _) hself b
  exact hguarding.fix_eq b

theorem climb_run_stop {least : Int} {left : Node}
    (h : (frontOf finish ahead).precedence < least ∨ (frontOf finish ahead).precedence < 0) :
    (climb operand (least, left)).run finish ahead = ⟨.ok left, [], ahead⟩ := by
  have hbody : (climbBody operand (climb operand) (least, left)).run finish ahead =
      (if (frontOf finish ahead).precedence < least ∨ (frontOf finish ahead).precedence < 0 then
        (pure left : Parse Node) else _).run finish ahead := rfl
  rw [climb_eq, hbody, if_pos h]
  rfl

/-- Where no tighter operator is at the front, going on with an operand changes nothing. -/
theorem climb_tighter (operand : Parse Node) (p : Int) (first : Node) (k : Node → Parse Node) :
    (current >>= fun next =>
        if p < next.precedence then climb operand (p + 1, first) >>= k else pure first >>= k) =
      climb operand (p + 1, first) >>= k := by
  ext1 finish ahead
  have hcurrent : ∀ f : Token → Parse Node,
      (current >>= f).run finish ahead = (f (frontOf finish ahead)).run finish ahead :=
    fun _ => rfl
  rw [hcurrent]
  by_cases h : p < (frontOf finish ahead).precedence
  · rw [if_pos h]
  · have hstop : (climb operand (p + 1, first)).run finish ahead = ⟨.ok first, [], ahead⟩ :=
      climb_run_stop (.inl (by omega))
    rw [if_neg h, run_bind_of_ok hstop]
    rfl

/-- An operator that binds tightly enough is read with its right side: an operand and the tighter
operators after it. -/
theorem climb_run_go {least : Int} {left : Node} {op : BinaryOperator}
    (hleast : least ≤ t.precedence) (ht : 0 ≤ t.precedence)
    (hop : binaryOperator? t.terminal = some op) :
    let found := (operand >>= fun first => climb operand (t.precedence + 1, first) >>= fun right =>
      climb operand (least, .binary op left right t.location)).run finish ahead
    (climb operand (least, left)).run finish (t :: ahead) =
      ⟨found.value, .read t :: found.trace, found.rest⟩ := by
  have hgo : ¬ (t.precedence < least ∨ t.precedence < 0) := by omega
  have hbody : (climbBody operand (climb operand) (least, left)).run finish (t :: ahead) =
      (if t.precedence < least ∨ t.precedence < 0 then pure left
        else advance >>= fun _ => _).run finish (t :: ahead) := rfl
  have hfront : binaryOperator? (frontOf finish (t :: ahead)).terminal = some op := hop
  rw [climb_eq, hbody, if_neg hgo, hfront]
  simp only [climb_tighter]
  rfl

def Outcome.behind (o : Outcome (List Link)) (links : List Link) (trace : Trace) :
    Outcome (List Link) := ⟨o.value.map (links ++ ·), trace ++ o.trace, o.rest⟩

theorem Outcome.behind_nil (o : Outcome (List Link)) : o.behind [] [] = o := by
  obtain ⟨value, trace, rest⟩ := o
  cases value <;> rfl

theorem Outcome.behind_behind (o : Outcome (List Link)) (links more : List Link)
    (trace later : Trace) :
    (o.behind more later).behind links trace = o.behind (links ++ more) (trace ++ later) := by
  obtain ⟨value, trace, rest⟩ := o
  cases value <;> simp [behind, Except.map]

/-- A left side that the operator ahead may take is grouped with some links. -/
def Regroups (least : Int) (front : Token) (left n : Node) (links : List Link) : Prop :=
  ∀ p c, Groups p left c → (∀ x ∈ p, front.precedence ≤ x) →
    ∃ q, Groups q n (c.extend links) ∧ ∀ x ∈ q, x ∈ p ∨ least ≤ x

theorem regroups_nil (least : Int) (front : Token) (left : Node) :
    Regroups least front left left [] := by
  intro p c hleft _
  refine ⟨p, ?_, fun x hx => .inl hx⟩
  rwa [c.extend_nil]

/-- With its right side complete, an operator and its sides are the next left side. -/
theorem Regroups.go {least : Int} {front front' : Token} {op : BinaryOperator}
    {left first right : Node} {links more : List Link}
    (hright : Regroups (t.precedence + 1) front first right links)
    (hlater : Regroups least front' (.binary op left right t.location) n more)
    (hop : binaryOperator? t.terminal = some op) (hleast : least ≤ t.precedence)
    (hfront : front'.precedence < t.precedence + 1) :
    Regroups least t left n (⟨t, first⟩ :: (links ++ more)) := by
  intro p c hleft hp
  obtain ⟨q, hq, htighter⟩ := hright none _ (.operand first) (by simp)
  have hbinary : Groups (some t.precedence) (.binary op left right t.location)
      (c.extend (⟨t, first⟩ :: links)) := by
    refine .operator hleft hq hp (fun x hx => ?_) hop
    exact (htighter x hx).resolve_left (Option.not_mem_none x)
  obtain ⟨r, hr, hbound⟩ := hlater _ _ hbinary fun x hx => by
    obtain rfl := Option.some.inj hx
    omega
  refine ⟨r, ?_, fun x hx => ?_⟩
  · rwa [c.extend_extend, List.cons_append] at hr
  · rcases hbound x hx with hroot | hx
    · obtain rfl := Option.some.inj hroot
      exact .inr hleast
    · exact .inr hx

/-- What climbing does, told by the links ahead: it fails as they do, or it takes those that bind
tightly enough and groups them with the left side. -/
inductive Climbed (operand : Parse Node) (finish : Location) (least : Int) (left : Node)
    (ahead : List Token) : Outcome Node → Prop
  | failed {e : SyntaxError} {trace : Trace} {rest : List Token}
      (h : readLinks operand finish ahead = ⟨.error e, trace, rest⟩) :
      Climbed operand finish least left ahead ⟨.error e, trace, rest⟩
  | grouped {n : Node} {trace : Trace} {rest : List Token} {links : List Link}
      (hlinks : readLinks operand finish ahead =
        (readLinks operand finish rest).behind links trace)
      (hfront : (frontOf finish rest).precedence < least)
      (hgroups : Regroups least (frontOf finish ahead) left n links) :
      Climbed operand finish least left ahead ⟨.ok n, trace, rest⟩

theorem Climbed.right_failed {least : Int} {left first : Node} {trace' : Trace}
    {rest' : List Token} (ht : 0 ≤ t.precedence)
    (hrun : operand.run finish ahead = ⟨.ok first, trace, rest⟩)
    (hright : Climbed operand finish (t.precedence + 1) first rest ⟨.error e, trace', rest'⟩) :
    Climbed operand finish least left (t :: ahead)
      ⟨.error e, .read t :: (trace ++ trace'), rest'⟩ := by
  cases hright with
  | failed h =>
      apply Climbed.failed
      rw [readLinks_ok ht hrun, h]
      rfl

/-- After an operator with its right side, climbing goes on with both on its left. -/
theorem Climbed.go {least : Int} {op : BinaryOperator} {left first right : Node} {trace' : Trace}
    {rest' : List Token} {o : Outcome Node} (hleast : least ≤ t.precedence)
    (ht : 0 ≤ t.precedence) (hop : binaryOperator? t.terminal = some op)
    (hrun : operand.run finish ahead = ⟨.ok first, trace, rest⟩)
    (hright : Climbed operand finish (t.precedence + 1) first rest ⟨.ok right, trace', rest'⟩)
    (hlater : Climbed operand finish least (.binary op left right t.location) rest' o) :
    Climbed operand finish least left (t :: ahead)
      ⟨o.value, .read t :: (trace ++ (trace' ++ o.trace)), o.rest⟩ := by
  cases hright with
  | grouped hlinks hfront hgroups =>
      cases hlater with
      | failed h =>
          apply Climbed.failed
          rw [readLinks_ok ht hrun, hlinks, h]
          rfl
      | @grouped n later rest'' links hlinks' hfront' hgroups' =>
          refine .grouped ?_ hfront' (hgroups.go hgroups' hop hleast hfront)
          rw [readLinks_ok ht hrun, hlinks, hlinks', Outcome.behind_behind]
          generalize readLinks operand finish rest'' = found
          obtain ⟨value, _, _⟩ := found
          cases value <;> simp [Outcome.behind, Except.map]

theorem rest_of_run {α : Type} {p : Parse α} {value : Except SyntaxError α}
    (hwf : ∀ t ∈ ahead, t.WellFormed) (h : p.run finish ahead = ⟨value, trace, rest⟩) :
    rest.length ≤ ahead.length ∧ ∀ t ∈ rest, t.WellFormed := by
  have hahead := p.conserves finish ahead
  rw [h] at hahead
  constructor
  · rw [← hahead, List.length_append]
    exact Nat.le_add_left ..
  · intro t ht
    apply hwf
    rw [← hahead]
    exact List.mem_append_right _ ht

theorem climbed (operand : Parse Node) (finish : Location) {least : Int} (hleast : 0 ≤ least)
    (left : Node) (hwf : ∀ t ∈ ahead, t.WellFormed) :
    Climbed operand finish least left ahead
      ((climb operand (least, left)).run finish ahead) := by
  -- Both calls within a round are on fewer tokens: for the right side, one level above the operator,
  -- and for what follows, with the new node as its left side.
  induction hlength : ahead.length using Nat.strong_induction_on generalizing least left ahead with
  | _ length ih =>
      by_cases hstop : (frontOf finish ahead).precedence < least
      · rw [climb_run_stop (.inl hstop)]
        exact .grouped (Outcome.behind_nil _).symm hstop (regroups_nil _ _ _)
      · cases ahead with
        | nil =>
          have hend : (frontOf finish []).precedence = -1 := rfl
          omega
        | cons t ahead =>
          have ht : least ≤ t.precedence := Int.not_lt.1 hstop
          have hpos : 0 ≤ t.precedence := Int.le_trans hleast ht
          -- An operator of the lexicon has a tree operator, so no other failure is possible here.
          obtain ⟨hoperator, hahead⟩ := List.forall_mem_cons.1 hwf
          obtain ⟨op, hop⟩ :=
            Option.isSome_iff_exists.1 ((precedence_nonneg_iff (.inl hoperator)).1 hpos)
          rw [climb_run_go ht hpos hop]
          rcases run_bind_cases operand _ finish ahead with
            ⟨e, trace, rest, hrun, hbind⟩ | ⟨first, trace, rest, hrun, hbind⟩
          · rw [hbind]
            exact .failed (readLinks_error hpos hrun)
          obtain ⟨hshorter, hrest⟩ := rest_of_run hahead hrun
          have hright := ih rest.length (by rw [← hlength, List.length_cons]; omega)
            (Int.le_add_one hpos) first hrest rfl
          rw [hbind]
          rcases run_bind_cases (climb operand (t.precedence + 1, first)) _ finish rest with
            ⟨e, trace', rest', hrun', hbind'⟩ | ⟨right, trace', rest', hrun', hbind'⟩
          · rw [hrun'] at hright
            rw [hbind']
            exact hright.right_failed hpos hrun
          obtain ⟨hshorter', hrest'⟩ := rest_of_run hrest hrun'
          have hlater := ih rest'.length (by rw [← hlength, List.length_cons]; omega) hleast
            (.binary op left right t.location) hrest' rfl
          rw [hrun'] at hright
          rw [hbind']
          exact hright.go ht hpos hop hrun hlater

end

/-- An expression takes the tokens of a chain and fails where an operand of the chain does; and of
the chain it makes the only tree that groups it.  The tokens are such as a scanner gives. -/
theorem expression_groups (finish : Location) {ahead : List Token}
    (hwf : ∀ t ∈ ahead, t.WellFormed) :
    let read := readChain operand finish ahead
    let found := expression.run finish ahead
    found.trace = read.trace ∧ found.rest = read.rest ∧
      (∀ e, read.value = .error e → found.value = .error e) ∧
      ∀ chain, read.value = .ok chain → ∃ n, found.value = .ok n ∧ (∃ p, Groups p n chain) ∧
        ∀ p' n', Groups p' n' chain → n' = n := by
  intro read found
  rcases run_bind_cases operand (fun left => climb operand (0, left)) finish ahead with
    ⟨e, trace, rest, hrun, hbind⟩ | ⟨first, trace, rest, hrun, hbind⟩
  · have hread : read = ⟨.error e, trace, rest⟩ := by
      show (operand.run finish ahead).andThen _ = _
      rw [hrun, Outcome.andThen]
    have hfound : found = ⟨.error e, trace, rest⟩ := hbind
    rw [hread, hfound]
    refine ⟨rfl, rfl, fun _ he => by rw [← Except.error.inj he], fun chain hok => ?_⟩
    cases hok
  · have hclimbed := climbed operand finish (Int.le_refl 0) first (rest_of_run hwf hrun).2
    have hread : read = ⟨(readLinks operand finish rest).value.map (⟨first, ·⟩),
        trace ++ (readLinks operand finish rest).trace,
        (readLinks operand finish rest).rest⟩ := by
      show (operand.run finish ahead).andThen _ = _
      rw [hrun, Outcome.andThen]
    have hfound : found = ⟨((climb operand (0, first)).run finish rest).value,
        trace ++ ((climb operand (0, first)).run finish rest).trace,
        ((climb operand (0, first)).run finish rest).rest⟩ := hbind
    rw [hread, hfound]
    generalize (climb operand (0, first)).run finish rest = o at hclimbed
    cases hclimbed with
    | failed h =>
      rw [h]
      refine ⟨rfl, rfl, fun _ he => by rw [← Except.error.inj he], fun chain hok => ?_⟩
      cases hok
    | @grouped n trace' rest' links hlinks hfront hgroups =>
      rw [hlinks, readLinks_stop hfront]
      obtain ⟨p, hp, -⟩ := hgroups none _ (.operand first) (by simp)
      refine ⟨by simp [Outcome.behind], rfl, fun e he => ?_, fun chain hchain => ?_⟩
      · cases he
      obtain rfl : Chain.mk first (links ++ []) = chain := Except.ok.inj hchain
      rw [List.append_nil]
      exact ⟨n, rfl, ⟨p, hp⟩, fun p' n' h' => hp.unique h'⟩

/-- Five operators of four precedences, up to a semicolon. -/
theorem expression_groups_mixed :
    let ahead := sourceTokens "Mixed" "a = b < c + d * e - f ;"
    let finish := sourceEnd "Mixed" "a = b < c + d * e - f ;"
    let read := readChain operand finish ahead
    let found := expression.run finish ahead
    (∀ t ∈ ahead, t.WellFormed) ∧ found.trace = read.trace ∧ found.rest = read.rest ∧
      (∀ e, read.value = .error e → found.value = .error e) ∧
      (∀ chain, read.value = .ok chain → ∃ n, found.value = .ok n ∧ (∃ p, Groups p n chain) ∧
        ∀ p' n', Groups p' n' chain → n' = n) ∧
      found.rest.map (·.text) = [";"] := by
  intro ahead finish read found
  have hwf : ∀ t ∈ ahead, t.WellFormed := Lexical.wellFormed_tokens _ _
  obtain ⟨htrace, hrest, hfailed, hgrouped⟩ := expression_groups finish hwf
  exact ⟨hwf, htrace, hrest, hfailed, hgrouped, by decide +kernel⟩

end MiniJava.Grammar
