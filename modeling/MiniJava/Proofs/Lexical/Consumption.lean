import MiniJava.Proofs.Lexical.Request
import MiniJava.Proofs.Lexical.WholeWords
/-!
# What requests take off a text

A request for a token is a sequence of attempts.  Each of them passes over gaps and then takes a
word or malformed text off what is left, so that only an attempt at the end of the source takes
nothing.  The loops within an attempt take a character or more in each round, too.
-/

namespace MiniJava.Lexical

open Text

theorem advances_of_fronts {read? : List Char → Option Segment}
    (h : ∀ {text g}, read? text = some g → ∃ rest, g.Fronts text rest) :
    Advances read? Segment.text := by
  intro text g hread
  obtain ⟨rest, hfronts⟩ := h hread
  exact ⟨⟨rest, hfronts.split.symm⟩, hfronts.nonempty⟩

theorem Segment.advances_read? : Advances Segment.read? Segment.text :=
  advances_of_fronts Segment.read?_fronts

/-! ## Loops within an attempt -/

namespace Gap

/-- The loop over blanks and comments.  A comment that is never closed is passed over by it, too. -/
def round (text : List Char) : Option (List Char) := (read? text).map Segment.text

theorem exists_rounds (text : List Char) : ∃ pieces left, Rounds round text pieces left := by
  obtain ⟨left, hrounds⟩ := rounds_chunks (advances_of_fronts read?_fronts) text
  exact ⟨_, left, hrounds⟩

/-- The loop over the characters of a block comment, which stops before its end. -/
def blockRound : List Char → Option (List Char)
  | [] => none
  | '*' :: '/' :: _ => none
  | c :: _ => some [c]

theorem blockRound_of_ne {c : Char} {rest : List Char}
    (h : ∀ after, c :: rest ≠ '*' :: '/' :: after) : blockRound (c :: rest) = some [c] := by
  unfold blockRound
  split
  · next heq => exact absurd heq nofun
  · next heq => exact absurd heq (h _)
  · next heq => rw [(List.cons.inj heq).1]

theorem blockRound_stops {left : List Char} (h : blockRound left = none) :
    left = [] ∨ ∃ after, left = '*' :: '/' :: after := by
  unfold blockRound at h
  split at h
  · exact .inl rfl
  · exact .inr ⟨_, rfl⟩
  · exact absurd h (Option.some_ne_none _)

/-- A block comment is passed over character by character, and is closed if this stops before the
end of the text. -/
theorem rounds_block (rest : List Char) : ∃ pieces left, Rounds blockRound rest pieces left ∧
    throughClose? rest = if left = [] then none else some (pieces.flatten ++ ['*', '/']) := by
  induction rest with
  | nil => exact ⟨[], [], .stop rfl, rfl⟩
  | cons c rest ih =>
      by_cases hclose : ∃ after, c :: rest = '*' :: '/' :: after
      · obtain ⟨after, hafter⟩ := hclose
        rw [hafter]
        exact ⟨[], _, .stop rfl, rfl⟩
      · have hne : ∀ after, c :: rest ≠ '*' :: '/' :: after := not_exists.1 hclose
        obtain ⟨pieces, left, hrounds, hfound⟩ := ih
        refine ⟨[c] :: pieces, left, .next_single (blockRound_of_ne hne) hrounds, ?_⟩
        rw [throughClose?, hfound]
        · split <;> rfl
        · intro after hc hrest
          exact hne after (by rw [hc, hrest])

end Gap

namespace Quote

/-- The loop over what stands between two marks, which stops before the second one.  A backslash is
taken with the character after it. -/
def round (q : Quote) : List Char → Option (List Char)
  | [] => none
  | c :: rest =>
    if c = q.mark then none else if c = '\\' then some (c :: rest.take 1) else some [c]

theorem round_stops {q : Quote} {left : List Char} (h : q.round left = none) :
    left = [] ∨ ∃ after, left = q.mark :: after := by
  unfold round at h
  split at h
  · exact .inl rfl
  · next c rest =>
    by_cases hmark : c = q.mark
    · exact .inr ⟨rest, by rw [hmark]⟩
    · rw [if_neg hmark] at h
      split at h <;> exact absurd h (Option.some_ne_none _)

/-- A literal is read item by item, and is closed if this stops before the end of the text. -/
theorem rounds_quote (q : Quote) (rest : List Char) :
    ∃ pieces left, Rounds q.round rest pieces left ∧
      q.body? rest = if left = [] then none else some pieces.flatten := by
  fun_induction body? q rest with
  | case1 => exact ⟨[], [], .stop rfl, rfl⟩
  | case2 after => exact ⟨[], _, .stop (if_pos rfl), rfl⟩
  | case3 hmark =>
      have hround : q.round ['\\'] = some ['\\'] := by
        rw [round, if_neg hmark, if_pos rfl]
        rfl
      exact ⟨[['\\']], [], .next_single hround (.stop rfl), rfl⟩
  | case4 d rest hmark ih =>
      obtain ⟨pieces, left, hrounds, hbody⟩ := ih
      have hround : q.round ('\\' :: d :: rest) = some ['\\', d] := by
        rw [round, if_neg hmark, if_pos rfl]
        rfl
      have hpieces := @Rounds.next _ ['\\', d] _ _ _ hround (List.cons_ne_nil _ _) hrounds
      refine ⟨['\\', d] :: pieces, left, hpieces, ?_⟩
      rw [hbody]
      split <;> rfl
  | case5 c rest hmark hescape ih =>
      obtain ⟨pieces, left, hrounds, hbody⟩ := ih
      have hround : q.round (c :: rest) = some [c] := by
        rw [round, if_neg hmark, if_neg hescape]
      refine ⟨[c] :: pieces, left, .next_single hround hrounds, ?_⟩
      rw [hbody]
      split <;> rfl

end Quote

/-- The whole number that a number begins with has a digit, unless only `0x` stands there. -/
theorem Numeral.digits_ne_nil {c : Char} {rest : List Char} (h : c.isDigit = true) :
    let n := ofText (c :: rest)
    n.digits ≠ [] ∨ n.radix = .hexadecimal ∧ n.mark.length = 2 := by
  unfold ofText
  dsimp only
  unfold radixMark
  split
  · next d after heq =>
    obtain ⟨rfl, rfl⟩ := List.cons.inj heq
    split
    · exact .inr ⟨rfl, rfl⟩
    split
    · next hoctal =>
      left
      show (d :: after).takeWhile Radix.octal.isDigit ≠ []
      rw [List.takeWhile_cons_of_pos hoctal]
      exact List.cons_ne_nil _ _
    · left
      show ('0' :: d :: after).takeWhile Radix.decimal.isDigit ≠ []
      rw [List.takeWhile_cons_of_pos (Radix.isDigit_decimal h)]
      exact List.cons_ne_nil _ _
  · left
    show (c :: rest).takeWhile Radix.decimal.isDigit ≠ []
    rw [List.takeWhile_cons_of_pos (Radix.isDigit_decimal h)]
    exact List.cons_ne_nil _ _

/-- The loops within an attempt: over gaps, over the comments among them, over words, over what is
quoted, and over the parts of a number.  Each takes a character or more in every round and so comes
to an end, where all that the recogniser takes has been taken.  The round for the whole number that
a number begins with is counted with the mark of its radix, for a lone `0x` has no digits. -/
structure InnerLoops : Prop where
  gaps : ∀ text, ∃ pieces left, Rounds Gap.round text pieces left
  line : ∀ rest, ∃ pieces left, Rounds (single (· != '\n')) rest pieces left ∧
    (Gap.lineComment rest).text = '/' :: '/' :: pieces.flatten
  block : ∀ rest, ∃ pieces left, Rounds Gap.blockRound rest pieces left ∧
    (Gap.blockComment rest).text = '/' :: '*' :: (pieces.flatten ++ left.take 2)
  word : ∀ text, ∃ pieces left, Rounds (single isWordChar) text pieces left ∧
    (Word.extent text = Lexicon.printSpelling.toList ∨ Word.extent text = pieces.flatten)
  quoted : ∀ (q : Quote) rest, ∃ pieces left, Rounds q.round rest pieces left ∧
    (q.read rest).text = q.mark :: (pieces.flatten ++ left.take 1)
  number : ∀ (c : Char) rest, c.isDigit = true → let n := Numeral.ofText (c :: rest)
    ∃ behind left after, c :: rest = n.mark ++ (n.digits ++ behind) ∧
      (n.digits ≠ [] ∨ n.radix = .hexadecimal ∧ n.mark.length = 2) ∧
      Rounds (single n.radix.isDigit) (n.digits ++ behind) (n.digits.map fun c => [c]) behind ∧
      Rounds (NumeralPart.round n.radix) behind (n.parts.map NumeralPart.text) left ∧
      Rounds (single isWordChar) left (n.glued.map fun c => [c]) after ∧
      c :: rest = (Numeral.read (c :: rest)).text ++ after

theorem innerLoops : InnerLoops where
  gaps := Gap.exists_rounds
  line rest := by
    refine ⟨_, _, rounds_single _ rest, ?_⟩
    rw [flatten_singles]
    rfl
  block rest := by
    obtain ⟨pieces, left, hrounds, hfound⟩ := Gap.rounds_block rest
    refine ⟨pieces, left, hrounds, ?_⟩
    rcases Gap.blockRound_stops hrounds.stopped with rfl | ⟨after, rfl⟩
    · rw [Gap.blockComment, hfound]
      exact congrArg (fun t => '/' :: '*' :: t) hrounds.split
    · rw [Gap.blockComment, hfound]
      rfl
  word text := by
    refine ⟨_, _, rounds_single isWordChar text, ?_⟩
    rw [flatten_singles]
    exact (Word.extent_cases text).imp And.right And.right
  quoted q rest := by
    obtain ⟨pieces, left, hrounds, hbody⟩ := q.rounds_quote rest
    refine ⟨pieces, left, hrounds, ?_⟩
    rcases Quote.round_stops hrounds.stopped with rfl | ⟨after, rfl⟩
    · rw [Quote.read, hbody]
      exact congrArg (q.mark :: ·) hrounds.split
    · rw [Quote.read, hbody]
      rfl
  number c rest h := by
    obtain ⟨behind, left, hsplit, hdigits, hparts, hglued⟩ := Numeral.rounds_ofText (c :: rest)
    have hletters := rounds_single isWordChar left
    rw [← hglued] at hletters
    refine ⟨behind, left, _, hsplit, Numeral.digits_ne_nil h, hdigits, hparts, hletters, ?_⟩
    have hbehind : behind = (Numeral.ofText (c :: rest)).parts.flatMap NumeralPart.text ++ left :=
      hparts.split
    have hleft := hletters.split
    rw [flatten_singles] at hleft
    rw [Numeral.read_text, Numeral.text, List.append_assoc, ← hleft, List.append_assoc,
      List.append_assoc, ← hbehind, ← hsplit]

/-! ## Attempts -/

/-- An attempt to read a token: what it passes over, round by round, and what it takes then. -/
structure Attempt where
  skipped : List (List Char)
  taken : List Char

def Attempt.extent (a : Attempt) : List Char := a.skipped.flatten ++ a.taken

/-- The attempts of a request before a text, the text that they leave, and the word that the last
one finds.  An attempt at malformed text is followed by another; one that finds nothing is at the
end of the source. -/
inductive Attempts : List Char → List Attempt → List Char → Option Lexeme → Prop
  | finish {text : List Char} {skipped : List (List Char)} (h : Rounds Gap.round text skipped []) :
      Attempts text [⟨skipped, []⟩] [] none
  | word {text taken left : List Char} {skipped : List (List Char)} {l : Lexeme}
      (h : Rounds Gap.round text skipped (taken ++ left))
      (hread : Segment.read? (taken ++ left) = some ⟨taken, .word l⟩) :
      Attempts text [⟨skipped, taken⟩] left (some l)
  | failure {text taken rest left : List Char} {skipped : List (List Char)}
      {attempts : List Attempt} {found : Option Lexeme} {first : Fault} {others : List Fault}
      (h : Rounds Gap.round text skipped (taken ++ rest))
      (hread : Segment.read? (taken ++ rest) = some ⟨taken, .malformed first others⟩)
      (later : Attempts rest attempts left found) :
      Attempts text (⟨skipped, taken⟩ :: attempts) left found

namespace Attempts

variable {text here rest left : List Char} {attempts : List Attempt} {found : Option Lexeme}

/-- Attempts take a text off from its front. -/
theorem split (h : Attempts text attempts left found) :
    text = attempts.flatMap Attempt.extent ++ left := by
  induction h with
  | finish h => simpa [Attempt.extent] using h.split
  | word h _ => simpa [Attempt.extent] using h.split
  | failure h _ _ ih =>
      rw [h.split, List.flatMap_cons, Attempt.extent, List.append_assoc, List.append_assoc, ← ih]

/-- All attempts but the last are at malformed text and take it; the last takes a word, if there is
one. -/
theorem exists_last (h : Attempts text attempts left found) :
    ∃ failed last, attempts = failed ++ [last] ∧ (∀ a ∈ failed, a.taken ≠ []) ∧
      (last.taken = [] → found = none) := by
  induction h with
  | finish => exact ⟨[], _, rfl, List.forall_mem_nil _, fun _ => rfl⟩
  | word _ hread =>
      exact ⟨[], _, rfl, List.forall_mem_nil _, fun h =>
        absurd h (Segment.advances_read? _ _ hread).2⟩
  | failure _ hread _ ih =>
      obtain ⟨failed, last, rfl, hfailed, hlast⟩ := ih
      refine ⟨_ :: failed, last, rfl, List.forall_mem_cons.2 ⟨?_, hfailed⟩, hlast⟩
      exact (Segment.advances_read? _ _ hread).2

/-- There is at most one attempt more than there are characters. -/
theorem length_le (h : Attempts text attempts left found) :
    attempts.length ≤ text.length + 1 := by
  induction h with
  | finish => exact Nat.succ_le_succ (Nat.zero_le _)
  | word => exact Nat.succ_le_succ (Nat.zero_le _)
  | @failure text taken rest left skipped attempts found first others h hread _ ih =>
      have hpos := List.length_pos_iff.2 (Segment.advances_read? _ _ hread).2
      have hskipped := h.length_le
      rw [List.length_append] at hskipped
      rw [List.length_cons]
      dsimp only at hpos
      omega

theorem gap (hround : Gap.round (here ++ rest) = some here) (hne : here ≠ [])
    (h : Attempts rest attempts left found) :
    ∃ attempts', Attempts (here ++ rest) attempts' left found ∧
      attempts'.flatMap Attempt.extent = here ++ attempts.flatMap Attempt.extent := by
  have hassoc : ∀ {skipped : List (List Char)} {taken : List Char},
      Attempt.extent ⟨here :: skipped, taken⟩ = here ++ Attempt.extent ⟨skipped, taken⟩ := by
    simp [Attempt.extent]
  cases h with
  | finish h => exact ⟨_, .finish (.next hround hne h), by simp [hassoc]⟩
  | word h hread => exact ⟨_, .word (.next hround hne h) hread, by simp [hassoc]⟩
  | failure h hread later =>
      exact ⟨_, .failure (.next hround hne h) hread later, by simp [hassoc]⟩

end Attempts

theorem Segment.read?_of_gap {text : List Char} {g : Segment} (h : Gap.read? text = some g) :
    Segment.read? text = some g := by
  cases text with
  | nil => exact absurd h nofun
  | cons c rest => rw [Segment.read?, h, Option.some_or]

theorem Segment.content_ne_gap {here rest : List Char} (hgap : Gap.read? (here ++ rest) = none) :
    Segment.read? (here ++ rest) ≠ some ⟨here, .gap⟩ := by
  intro h
  obtain ⟨after, hfronts⟩ := Segment.read?_fronts h
  have hdescribed : GapText after here := hfronts.described
  cases hdescribed with
  | blank hblank =>
      unfold Gap.read? at hgap
      split at hgap
      · exact absurd hgap nofun
      · exact absurd hgap nofun
      · next heq =>
        obtain ⟨rfl, -⟩ := List.cons.inj heq
        rw [if_pos hblank] at hgap
        exact absurd hgap nofun
      · next heq => exact absurd heq nofun
  | line => exact absurd hgap nofun
  | block => exact absurd hgap nofun

/-- A segment that is no word is passed over, by the first attempt or by one of its own. -/
theorem Attempts.pass {here rest left : List Char} {attempts : List Attempt} {found : Option Lexeme}
    {content : Content} (hread : Segment.read? (here ++ rest) = some ⟨here, content⟩)
    (hword : ∀ l, content ≠ .word l) (h : Attempts rest attempts left found) :
    ∃ attempts', Attempts (here ++ rest) attempts' left found ∧
      attempts'.flatMap Attempt.extent = here ++ attempts.flatMap Attempt.extent := by
  have hne : here ≠ [] := (Segment.advances_read? _ _ hread).2
  cases hgap : Gap.read? (here ++ rest) with
  | some g =>
      -- this may be a comment that is never closed, which is malformed and yet a gap
      rw [Segment.read?_of_gap hgap] at hread
      exact h.gap (by rw [Gap.round, hgap, Option.some.inj hread]; rfl) hne
  | none =>
      have hstop : Gap.round (here ++ rest) = none := by rw [Gap.round, hgap]; rfl
      cases content with
      | gap => exact absurd hread (Segment.content_ne_gap hgap)
      | word l => exact absurd rfl (hword l)
      | malformed first others =>
          exact ⟨_, .failure (.stop hstop) hread h, by simp [Attempt.extent]⟩

/-! ## Requests -/

namespace TokenStream

/-- A request is a sequence of attempts.  It leaves the stream before the text that they leave, and
gives the word that they find. -/
theorem exists_attempts (s : TokenStream) (p : Point) (text : List Char) :
    ∃ (attempts : List Attempt) (left : List Char) (found : Option Lexeme) (r : Reading),
      Attempts text attempts left found ∧ r.token.toLexeme = found.getD .endOfFile ∧
      r.token.location.NotAfter ⟨p.after (attempts.flatMap Attempt.extent), s.source⟩ ∧
      (s.before p text).next =
        (s.give r).before (p.after (attempts.flatMap Attempt.extent)) left := by
  have hsegmented := segmented_segments text
  generalize segments text = gs at hsegmented
  induction hsegmented generalizing s p with
  | nil => exact ⟨_, [], none, _, .finish (.stop rfl), rfl, .refl _, s.next_before_nil p⟩
  | @cons text rest g gs hread fronts _ ih =>
      obtain ⟨here, content⟩ := g
      obtain rfl : text = here ++ rest := fronts.split
      cases content with
      | gap =>
          obtain ⟨attempts, left, found, r, hattempts, htoken, hplace, hnext⟩ := ih s (p.after here)
          obtain ⟨more, hmore, htext⟩ := hattempts.pass hread (by simp)
          refine ⟨more, left, found, r, hmore, htoken, ?_⟩
          rw [s.before_gap p hread, htext, Point.after_append]
          exact ⟨hplace, hnext⟩
      | word l =>
          have hgap : Gap.read? (here ++ rest) = none := by
            rw [Option.eq_none_iff_forall_ne_some]
            intro g hg
            rw [Segment.read?_of_gap hg] at hread
            exact Gap.read?_ne_word (hg.trans hread)
          have hstop : Gap.round (here ++ rest) = none := by rw [Gap.round, hgap]; rfl
          refine ⟨_, rest, some l, ⟨[], l, ⟨p, s.source⟩⟩, .word (.stop hstop) hread, rfl,
            Location.notAfter_after .., ?_⟩
          rw [s.next_before_word p hread]
          simp [Attempt.extent]
      | malformed first others =>
          have hne : (first :: others).map (·.diagnose s.source p here) ≠ [] := List.cons_ne_nil _ _
          generalize hreport : (first :: others).map (·.diagnose s.source p here) = report at hne
          obtain ⟨attempts, left, found, r, hattempts, htoken, hplace, hnext⟩ :=
            ih (s.note report) (p.after here)
          obtain ⟨more, hmore, htext⟩ := hattempts.pass hread (by simp)
          refine ⟨more, left, found, { r with diagnostics := report ++ r.diagnostics }, hmore,
            htoken, ?_⟩
          rw [s.next_before_malformed p hread, hreport, hnext, htext, Point.after_append]
          exact ⟨hplace, s.faulty_give_note _ hne ..⟩

/-- What a request does wherever a stream stands, attempt by attempt. -/
theorem Stands.attempts {s : TokenStream} {source : String} {before ahead : List Char}
    (h : s.Stands source before ahead) :
    ∃ (attempts : List Attempt) (left : List Char) (found : Option Lexeme),
      Attempts ahead attempts left found ∧ s.next.current.toLexeme = found.getD .endOfFile ∧
      s.next.Stands source (before ++ attempts.flatMap Attempt.extent) left := by
  obtain ⟨rfl, hstate, -⟩ := h
  obtain ⟨attempts, left, found, r, hattempts, htoken, hplace, hnext⟩ :=
    s.exists_attempts (Point.origin.after before) ahead
  rw [← hstate] at hnext
  refine ⟨attempts, left, found, hattempts, ?_, ?_⟩
  · rw [hnext]
    exact htoken
  · rw [hnext, ← Point.after_append]
    rw [← Point.after_append] at hplace
    exact ⟨rfl, rfl, hplace⟩

end TokenStream

/-! ## Whole scans -/

theorem segments_length_le (text : List Char) : (segments text).length ≤ text.length := by
  obtain ⟨left, hrounds⟩ := rounds_chunks Segment.advances_read? text
  have hlength := hrounds.length_le
  rw [List.length_map] at hlength
  exact Nat.le_trans (Nat.le_add_right _ _) hlength

theorem tokens_length_le (source : String) (p : Point) (gs : List Segment) :
    (Readings.ofSegments source p gs).tokens.length ≤ gs.length := by
  induction gs generalizing p with
  | nil => exact Nat.le_refl _
  | cons g gs ih =>
      have hlater := ih (p.after g.text)
      unfold Readings.ofSegments
      split
      · exact Nat.le_succ_of_le hlater
      · exact Nat.succ_le_succ hlater
      · dsimp only
        rw [Readings.tokens_precededBy]
        exact Nat.le_succ_of_le hlater

theorem countP_range_le (k m : Nat) :
    (List.range k).countP (fun i => decide (i < m)) ≤ min k m := by
  induction k with
  | zero => exact Nat.zero_le _
  | succ k ih =>
      rw [List.range_succ, List.countP_append, List.countP_singleton]
      split
      · next hk =>
        have hlt : k < m := of_decide_eq_true hk
        omega
      · omega

/-- However a stream was used before, a request comes to an end: each of its attempts takes a
character or more behind the gaps that it passes over, unless it finds the end of the source, and
there is at most one attempt more than there are characters left.  The loops within attempts take
characters likewise, and all requests together give no more words than the source has characters. -/
theorem requests_consume (source text : String) :
    (∀ uses : List TokenStream.Use,
      let s := TokenStream.used source text uses
      ∃ (before ahead left : List Char) (failed : List Attempt) (last : Attempt)
          (found : Option Lexeme),
        text.toList = before ++ ahead ∧ s.Stands source before ahead ∧
        Attempts ahead (failed ++ [last]) left found ∧
        ahead = (failed ++ [last]).flatMap Attempt.extent ++ left ∧
        s.next.Stands source (before ++ (failed ++ [last]).flatMap Attempt.extent) left ∧
        s.next.current.toLexeme = found.getD .endOfFile ∧
        (∀ a ∈ failed, a.taken ≠ []) ∧
        (s.next.current.isEndOfFile = false → last.taken ≠ []) ∧
        (failed ++ [last]).length ≤ ahead.length + 1) ∧
    (∀ k, (List.range k).countP (fun i =>
      !((TokenStream.ofText source text).skip (i + 1)).current.isEndOfFile) ≤ text.toList.length) ∧
    InnerLoops := by
  refine ⟨fun uses => ?_, fun k => ?_, innerLoops⟩
  · obtain ⟨before, ahead, htext, hstands⟩ := TokenStream.stands_used source text uses
    obtain ⟨attempts, left, found, hattempts, htoken, hnext⟩ := hstands.attempts
    obtain ⟨failed, last, rfl, hfailed, hlast⟩ := hattempts.exists_last
    refine ⟨before, ahead, left, failed, last, found, htext, hstands, hattempts, hattempts.split,
      hnext, htoken, hfailed, fun hword hnone => ?_, hattempts.length_le⟩
    rw [hlast hnone] at htoken
    rw [Token.isEndOfFile, htoken] at hword
    exact absurd hword (by decide)
  · have hwords : (TokenStream.ofText source text).remaining.length ≤ text.toList.length :=
      Nat.le_trans (tokens_length_le source .origin _) (segments_length_le _)
    refine Nat.le_trans (Nat.le_of_eq ?_)
      (Nat.le_trans (countP_range_le k _) (Nat.le_trans (Nat.min_le_right _ _) hwords))
    congr 1
    funext i
    rw [TokenStream.isEndOfFile_current_skip, ← decide_not]
    exact decide_eq_decide.2 Nat.not_le

end MiniJava.Lexical
