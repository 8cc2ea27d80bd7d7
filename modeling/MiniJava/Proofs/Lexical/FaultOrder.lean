import MiniJava.Proofs.Lexical.Order
/-!
# The order of faults

Asking for tokens goes through a source from front to back: the faults of malformed text are
found in order, after the tokens before that text and before those after it.
-/

namespace MiniJava

namespace Location

/-- At the same place, or at an earlier point of the same source. -/
def NotAfter (l m : Location) : Prop := l = m ∨ l.Before m

theorem NotAfter.refl (l : Location) : l.NotAfter l := .inl rfl

theorem NotAfter.trans {l m n : Location} (hlm : l.NotAfter m) (hmn : m.NotAfter n) :
    l.NotAfter n := by
  rcases hlm with rfl | hlm
  · exact hmn
  · rcases hmn with rfl | hmn
    · exact .inr hlm
    · exact .inr (hlm.trans hmn)

theorem notAfter_after (source : String) (p : Point) (text : List Char) :
    NotAfter ⟨p, source⟩ ⟨p.after text, source⟩ := by
  by_cases h : text = []
  · rw [h]
    exact .refl _
  · exact .inr ⟨rfl, p.before_after h⟩

theorem NotAfter.ordered {l m : Location} {ls : List Location} (h : l.NotAfter m)
    (hm : (m :: ls).Pairwise NotAfter) : (l :: ls).Pairwise NotAfter :=
  .cons (fun _ hn => h.trans (List.rel_of_pairwise_cons hm hn)) hm.of_cons

theorem NotAfter.ordered_cons {l m : Location} {ls : List Location} (h : l.NotAfter m)
    (hm : (m :: ls).Pairwise NotAfter) : (l :: m :: ls).Pairwise NotAfter :=
  .cons (List.forall_mem_cons.2 ⟨h, fun _ hn => h.trans (List.rel_of_pairwise_cons hm hn)⟩) hm

end Location

namespace Lexical

open Text

/-! ## The faults of one word -/

def Ascending (n : Nat) (fs : List Fault) : Prop := (n :: fs.map (·.offset)).Pairwise (· ≤ ·)

theorem Ascending.append {m n : Nat} {fs gs : List Fault} (hgs : Ascending m gs)
    (hfs : ∀ f ∈ fs, f.offset = n) (hle : n ≤ m) : Ascending n (fs ++ gs) := by
  obtain ⟨hm, hordered⟩ := List.pairwise_cons.1 hgs
  induction fs with
  | nil => exact .cons (fun k hk => Nat.le_trans hle (hm k hk)) hordered
  | cons f fs ih =>
      obtain ⟨hf, hfs⟩ := List.forall_mem_cons.1 hfs
      have hlater := ih hfs
      refine .cons ?_ (by rw [List.cons_append, List.map_cons, hf]; exact hlater)
      rw [List.cons_append, List.map_cons, List.forall_mem_cons]
      exact ⟨hf.ge, (List.pairwise_cons.1 hlater).1⟩

theorem Ascending.nil (n : Nat) : Ascending n [] := List.pairwise_singleton _ n

theorem Ascending.from_start {n : Nat} {fs : List Fault} (h : Ascending n fs) : Ascending 0 fs :=
  h.append (List.forall_mem_nil _) (Nat.zero_le n)

theorem ascending_atStart (cause : Cause) : Ascending 0 [.atStart cause] :=
  .cons (List.forall_mem_singleton.2 (Nat.le_refl 0)) (List.pairwise_singleton _ 0)

/-- The faults of parts are found one after another, from where the parts begin. -/
theorem NumeralPart.faults_ascending (radix : Radix) (after : List Char)
    (hasFraction hasExponent : Bool) (offset : Nat) (parts : List NumeralPart) :
    Ascending offset (faults radix after hasFraction hasExponent offset parts) := by
  have hone : ∀ (c : Bool) (f : Fault), ∀ g ∈ (if c then [f] else []), g.offset = f.offset := by
    intro c f
    cases c <;> simp
  induction parts generalizing hasFraction hasExponent offset with
  | nil => exact .nil offset
  | cons part parts ih =>
      cases part with
      | fraction digits =>
          refine (ih true hasExponent _).append ?_ (Nat.le_add_right _ _)
          refine List.forall_mem_append.2 ⟨List.forall_mem_append.2 ⟨hone _ _, hone _ _⟩, ?_⟩
          cases radix <;> simp
      | exponent mark sign digits =>
          rw [faults, List.append_assoc]
          refine ((ih hasFraction true _).append (hone _ _) (Nat.le_refl _)).append (hone _ _) ?_
          exact Nat.le_add_right _ _

theorem Numeral.faults_ascending (n : Numeral) (after : List Char) :
    Ascending 0 (n.faults after) := by
  have hparts := NumeralPart.faults_ascending n.radix (n.glued ++ after) false false
    (n.mark.length + n.digits.length) n.parts
  have hbare : ∀ f ∈ (if n.radix = .hexadecimal ∧ n.digits = [] then
      [(⟨n.mark.length + n.digits.length, .noHexadecimalDigit⟩ : Fault)] else []),
      f.offset = n.mark.length + n.digits.length := by
    split <;> simp
  have hfound := (hparts.append hbare (Nat.le_refl _)).from_start
  unfold faults
  dsimp only
  generalize (_ : List Fault) ++ NumeralPart.faults _ _ _ _ _ _ = found at hfound ⊢
  split
  · exact ascending_atStart _
  · exact hfound

def Content.Ordered : Content → Prop
  | .malformed first others => Ascending 0 (first :: others)
  | _ => True

theorem Content.Plain.ordered {content : Content} (h : content.Plain) : content.Ordered := by
  cases h with
  | malformed => exact ascending_atStart _
  | _ => trivial

theorem Numeral.value_ordered (n : Numeral) : n.value.Ordered := by
  unfold value
  dsimp only
  split
  · split
    · trivial
    · exact ascending_atStart _
  split
  · exact ascending_atStart _
  · split
    · trivial
    · exact ascending_atStart _

theorem Segment.read?_ordered {text : List Char} {g : Segment} (h : Segment.read? text = some g) :
    g.content.Ordered := by
  rcases Segment.read?_plain h with hplain | rfl
  · exact hplain.ordered
  · have hfaults := Numeral.faults_ascending (Numeral.ofText text)
    unfold Numeral.read
    dsimp only
    split
    · exact Numeral.value_ordered _
    · next hcons =>
      have hascending := hfaults (text.drop
        ((Numeral.ofText text).text ++ (Numeral.ofText text).glued).length)
      rw [hcons] at hascending
      exact hascending

/-! ## The places of a scan -/

/-- Where what a request yields stands, in the order in which it is found. -/
def Reading.places (r : Reading) : List Location :=
  r.diagnostics.map (·.location) ++ [r.token.location]

def Readings.places (rs : Readings) : List Location :=
  rs.words.flatMap Reading.places ++ rs.ending.places

theorem Readings.places_precededBy (found : List Diagnostic) (rs : Readings) :
    (rs.precededBy found).places = found.map (·.location) ++ rs.places := by
  unfold precededBy places
  split
  · next h => simp [h, Reading.places]
  · next h => simp [h, Reading.places]

theorem notAfter_take (source : String) (p : Point) (text : List Char) {m n : Nat} (h : m ≤ n) :
    Location.NotAfter ⟨p.after (text.take m), source⟩ ⟨p.after (text.take n), source⟩ := by
  have hsplit := List.take_append_drop m (text.take n)
  rw [List.take_take, Nat.min_eq_left h] at hsplit
  rw [← hsplit, Point.after_append]
  exact Location.notAfter_after _ _ _

/-- Faults that are found one after another are reported one after another, before what follows
the text. -/
theorem Ascending.places_ordered {n : Nat} {fs : List Fault} (h : Ascending n fs)
    (source : String) (p : Point) (text : List Char) {later : List Location}
    (hlater : (⟨p.after text, source⟩ :: later : List Location).Pairwise Location.NotAfter) :
    (⟨p.after (text.take n), source⟩ ::
      (fs.map fun f => (f.diagnose source p text).location) ++ later).Pairwise
        Location.NotAfter := by
  induction fs generalizing n with
  | nil =>
      have hend := notAfter_take source p text (Nat.le_max_left n text.length)
      rw [List.take_of_length_le (Nat.le_max_right n text.length)] at hend
      exact hend.ordered hlater
  | cons f fs ih =>
      have hf : n ≤ f.offset := List.rel_of_pairwise_cons h (List.mem_cons_self ..)
      exact (notAfter_take source p text hf).ordered_cons (ih h.of_cons)

/-- What a scan yields stands in order, from where it begins. -/
theorem Segmented.places_ordered {text : List Char} {gs : List Segment} (h : Segmented text gs)
    (source : String) (p : Point) :
    (⟨p, source⟩ :: (Readings.ofSegments source p gs).places).Pairwise Location.NotAfter := by
  induction h generalizing p with
  | nil => exact (Location.NotAfter.refl _).ordered_cons (List.pairwise_singleton _ _)
  | @cons text rest g gs read fronts _ ih =>
      have hlater := ih (p.after g.text)
      have hg := Segment.read?_ordered read
      have hadvance := (Location.notAfter_after source p g.text).ordered hlater
      unfold Readings.ofSegments
      cases hc : g.content with
      | gap => exact hadvance
      | malformed first others =>
          dsimp only
          rw [Readings.places_precededBy, List.map_map]
          rw [hc] at hg
          exact Ascending.places_ordered hg source p g.text hlater
      | word lexeme => exact (Location.NotAfter.refl _).ordered_cons hadvance

end Lexical

end MiniJava
