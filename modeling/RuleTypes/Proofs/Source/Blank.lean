import RuleTypes.Proofs.Source.Tokens

/-!
# Blanks between tokens

A blank is one code point of white space, a comment up to the end of its line, or a comment that is
closed. Between tokens all blanks that stand in a row are skipped.

* `Text.behindComment?`, `Text.behindBlank?`: the text behind a comment's end and behind a blank.
* `parse_gap`: a blank is read where one stands.
* `exists_parse_blank`: skipping blanks never fails, and stops where none stands.
* `behindBlank?_append`, `behindBlank?_append_none`: the same blanks stand in a text with another
  line behind it.
* `behindBlank?_append_of_ne_nil`, `behindBlank?_eq_none_of_append`: with any text behind it, as far
  as the blank does not go on there.
-/

namespace RuleTypes

namespace Text

/-- The text behind the first `*/`. -/
def behindComment? : Text → Option Text
  | [] => none
  | c :: s =>
    if c = '*' ∧ s.head? = some (CodePoint.ofChar '/') then some s.tail else behindComment? s

/-- The text behind the blank that a text begins with. -/
def behindBlank? : Text → Option Text
  | [] => none
  | [c] => if c.isSpace then some [] else none
  | c :: d :: s =>
    if c.isSpace then some (d :: s)
    else if c = '/' ∧ d = '/' then some (s.dropWhile (· ≠ CodePoint.ofChar '\n'))
    else if c = '/' ∧ d = '*' then behindComment? s
    else none

variable {s t w : Text} {c : CodePoint}

theorem behindBlank?_space (h : c.isSpace = true) (s : Text) : behindBlank? (c :: s) = some s := by
  cases s <;> rw [behindBlank?, if_pos h]

theorem behindBlank?_line (s : Text) :
    behindBlank? (CodePoint.ofChar '/' :: CodePoint.ofChar '/' :: s) =
      some (s.dropWhile (· ≠ CodePoint.ofChar '\n')) := rfl

theorem behindBlank?_block (s : Text) :
    behindBlank? (CodePoint.ofChar '/' :: CodePoint.ofChar '*' :: s) = behindComment? s := rfl

/-- Nothing else than white space, a line comment or a closed comment is a blank. -/
theorem behindBlank?_cases (h : behindBlank? s = some t) :
    (∃ c, c.isSpace = true ∧ s = c :: t) ∨
      (∃ u, s = CodePoint.ofChar '/' :: CodePoint.ofChar '/' :: u ∧
        t = u.dropWhile (· ≠ CodePoint.ofChar '\n')) ∨
      ∃ u, s = CodePoint.ofChar '/' :: CodePoint.ofChar '*' :: u ∧ behindComment? u = some t := by
  match s with
  | [] => cases h
  | [c] =>
    rw [behindBlank?, Option.ite_none_right_eq_some] at h
    obtain ⟨hspace, ht⟩ := h
    exact .inl ⟨c, hspace, by rw [Option.some.inj ht]⟩
  | c :: d :: u =>
    rw [behindBlank?] at h
    split at h
    · exact .inl ⟨c, ‹_›, by rw [Option.some.inj h]⟩
    · split at h
      · obtain ⟨rfl, rfl⟩ := ‹c = _ ∧ d = _›
        exact .inr (.inl ⟨u, rfl, (Option.some.inj h).symm⟩)
      · rw [Option.ite_none_right_eq_some] at h
        obtain ⟨⟨rfl, rfl⟩, ht⟩ := h
        exact .inr (.inr ⟨u, rfl, ht⟩)

/-- No blank begins with another code point than white space or a slash. -/
theorem behindBlank?_cons (hspace : c.isSpace = false) (hslash : c ≠ '/') (s : Text) :
    behindBlank? (c :: s) = none := by
  cases s <;> simp [behindBlank?, hspace, hslash]

/-- A slash begins a blank only where another slash or a star follows. -/
theorem behindBlank?_slash (hline : s.head? ≠ some (CodePoint.ofChar '/'))
    (hblock : s.head? ≠ some (CodePoint.ofChar '*')) :
    behindBlank? (CodePoint.ofChar '/' :: s) = none := by
  cases s with
  | nil => rfl
  | cons d s =>
    rw [List.head?_cons, ne_eq, Option.some.injEq] at hline hblock
    have hspace : (CodePoint.ofChar '/').isSpace = false := rfl
    simp [behindBlank?, hspace, hline, hblock]

theorem length_lt_of_behindComment? (h : behindComment? s = some t) : t.length < s.length := by
  induction s with
  | nil => cases h
  | cons c s ih =>
    rw [behindComment?] at h
    split at h
    · rw [← Option.some.inj h, List.length_tail, List.length_cons]
      omega
    · exact Nat.lt_succ_of_lt (ih h)

theorem length_lt_of_behindBlank? (h : behindBlank? s = some t) : t.length < s.length := by
  rcases behindBlank?_cases h with ⟨c, -, rfl⟩ | ⟨u, rfl, rfl⟩ | ⟨u, rfl, hu⟩
  · exact Nat.lt_succ_self _
  · have hle := (List.dropWhile_sublist (· ≠ CodePoint.ofChar '\n') (l := u)).length_le
    exact Nat.lt_succ_of_le (Nat.le_succ_of_le hle)
  · exact Nat.lt_succ_of_lt (Nat.lt_succ_of_lt (length_lt_of_behindComment? hu))

/-! ## With a line behind -/

theorem behindComment?_append (h : behindComment? s = some t) (w : Text) :
    behindComment? (s ++ w) = some (t ++ w) := by
  induction s with
  | nil => cases h
  | cons c s ih =>
    cases s with
    | nil => simp [behindComment?] at h
    | cons d s =>
      rw [behindComment?] at h
      rw [List.cons_append, behindComment?]
      split at h
      · rename_i hend
        rw [← Option.some.inj h]
        exact if_pos hend
      · rename_i hend
        exact (if_neg hend).trans (ih h)

/-- A blank stays one with a line behind it, and the line is left. -/
theorem behindBlank?_append (h : behindBlank? s = some t) (w : Text) :
    behindBlank? (s ++ CodePoint.ofChar '\n' :: w) = some (t ++ CodePoint.ofChar '\n' :: w) := by
  rcases behindBlank?_cases h with ⟨c, hspace, rfl⟩ | ⟨u, rfl, rfl⟩ | ⟨u, rfl, hu⟩
  · exact behindBlank?_space hspace _
  · rw [List.cons_append, List.cons_append, behindBlank?_line, List.dropWhile_append]
    split
    · rename_i hempty
      rw [List.isEmpty_iff.mp hempty]
      rfl
    · rfl
  · rw [List.cons_append, List.cons_append, behindBlank?_block]
    exact behindComment?_append hu _

/-- Where no blank stands none does with a line behind, unless it is the end of the text or the
begin of a comment that is not closed. -/
theorem behindBlank?_append_none (h : behindBlank? (c :: s) = none)
    (hopen : c = '/' → s.head? ≠ some (CodePoint.ofChar '*')) (w : Text) :
    behindBlank? (c :: s ++ CodePoint.ofChar '\n' :: w) = none := by
  rw [List.cons_append]
  by_cases hslash : c = '/'
  · subst hslash
    refine behindBlank?_slash ?_ ?_
    · cases s with
      | nil => exact fun hc => absurd (Option.some.inj hc) (by decide)
      | cons d s =>
        rintro hd
        rw [Option.some.inj hd, behindBlank?_line] at h
        cases h
    · cases s with
      | nil => exact fun hc => absurd (Option.some.inj hc) (by decide)
      | cons d s => exact hopen rfl
  · refine behindBlank?_cons (Bool.eq_false_iff.mpr fun hspace => ?_) hslash _
    rw [behindBlank?_space hspace] at h
    cases h

/-! ## With any text behind -/

/-- A blank that leaves something of a text leaves it with more behind it. -/
theorem behindBlank?_append_of_ne_nil (h : behindBlank? s = some t) (ht : t ≠ []) (w : Text) :
    behindBlank? (s ++ w) = some (t ++ w) := by
  rcases behindBlank?_cases h with ⟨c, hspace, rfl⟩ | ⟨u, rfl, rfl⟩ | ⟨u, rfl, hu⟩
  · exact behindBlank?_space hspace _
  · rw [List.cons_append, List.cons_append, behindBlank?_line, List.dropWhile_append,
      if_neg (by simpa only [List.isEmpty_iff] using ht)]
  · rw [List.cons_append, List.cons_append, behindBlank?_block]
    exact behindComment?_append hu _

/-- A blank begins a text with more behind it where one begins the text. -/
theorem behindBlank?_eq_none_of_append (h : behindBlank? (s ++ w) = none) :
    behindBlank? s = none := by
  cases hs : behindBlank? s with
  | none => rfl
  | some t =>
    by_cases ht : t = []
    · rcases behindBlank?_cases hs with ⟨c, hspace, rfl⟩ | ⟨u, rfl, -⟩ | ⟨u, rfl, hu⟩
      · rw [List.cons_append, behindBlank?_space hspace] at h
        cases h
      · cases h
      · rw [List.cons_append, List.cons_append, behindBlank?_block, behindComment?_append hu] at h
        cases h
    · rw [behindBlank?_append_of_ne_nil hs ht] at h
      cases h

end Text

namespace Source

open Expression

variable {s t : Text}

/-! ## Reading -/

/-- A comment up to the end of its line. -/
def lineComment : Expression Unit := twice '/' '/' *> skip (.star (butNot '\n'))

/-- A comment that is closed. -/
def blockComment : Expression Unit :=
  twice '/' '*' *> skip (.star (.notAt (twice '*' '/') *> anything) *> twice '*' '/')

/-- One blank. -/
def gap : Expression Unit := skip (.satisfy CodePoint.isSpace) <|> lineComment <|> blockComment

theorem parse_twice (c d : Char) (s : Text) :
    parse (twice c d) (CodePoint.ofChar c :: CodePoint.ofChar d :: s) =
      some (CodePoint.ofChar d, s) :=
  parse_right_of (parse_char c _) (parse_char d s)

/-- The inside of a comment is read up to its end; where there is none, all of it is. -/
theorem parse_comment (s : Text) :
    ∃ inside rest, parse (.star (.notAt (twice '*' '/') *> anything)) s = some (inside, rest) ∧
      parse (twice '*' '/') rest =
        (Text.behindComment? s).map fun t => (CodePoint.ofChar '/', t) := by
  induction s with
  | nil => exact ⟨[], [], parse_star_none rfl, rfl⟩
  | cons c s ih =>
    rw [Text.behindComment?]
    split
    · rename_i hend
      obtain ⟨rfl, hslash⟩ := hend
      cases s with
      | nil => cases hslash
      | cons d s =>
        obtain rfl := Option.some.inj hslash
        have htwice := parse_twice '*' '/' s
        refine ⟨[], _, parse_star_none (parse_right_none ?_ _), htwice⟩
        rw [parse_notAt, htwice]
        rfl
    · rename_i hend
      obtain ⟨inside, rest, hinside, hrest⟩ := ih
      have htwice : parse (twice '*' '/') (c :: s) = none :=
        parse_twice_none fun hc hd => hend ⟨Option.some.inj hc, hd⟩
      have hfirst : parse anything (c :: s) = some (c, s) := parse_satisfy_cons _ c s
      exact ⟨c :: inside, rest,
        parse_star_of rfl (parse_right_of (parse_notAt_of htwice) hfirst) hinside, hrest⟩

theorem parse_lineComment (s : Text) :
    parse lineComment (CodePoint.ofChar '/' :: CodePoint.ofChar '/' :: s) =
      some ((), s.dropWhile (· ≠ CodePoint.ofChar '\n')) :=
  parse_right_of (parse_twice '/' '/' s) (parse_map_of _ (parse_star_satisfy _ s))

theorem parse_blockComment (s : Text) :
    parse blockComment (CodePoint.ofChar '/' :: CodePoint.ofChar '*' :: s) =
      (Text.behindComment? s).map fun t => ((), t) := by
  obtain ⟨inside, rest, hinside, hend⟩ := parse_comment s
  cases hbehind : Text.behindComment? s with
  | none =>
    rw [hbehind] at hend
    exact parse_right_of_none (parse_twice '/' '*' s)
      (parse_map_none _ (parse_right_of_none hinside hend))
  | some t =>
    rw [hbehind] at hend
    exact parse_right_of (parse_twice '/' '*' s) (parse_map_of _ (parse_right_of hinside hend))

/-- A blank is read where one stands. -/
theorem parse_gap (s : Text) : parse gap s = (Text.behindBlank? s).map fun t => ((), t) := by
  match s with
  | [] => rfl
  | c :: s =>
    by_cases hspace : c.isSpace = true
    · rw [Text.behindBlank?_space hspace]
      have hfirst : parse (.satisfy CodePoint.isSpace) (c :: s) = some (c, s) := by
        rw [parse_satisfy_cons, if_pos hspace]
      exact parse_or_of (parse_map_of _ hfirst) _
    · have hfirst : parse (skip (.satisfy CodePoint.isSpace)) (c :: s) = none := by
        refine parse_map_none _ ?_
        rw [parse_satisfy_cons, if_neg hspace]
      refine parse_or_of_none hfirst ?_
      by_cases hline : c = '/' ∧ s.head? = some (CodePoint.ofChar '/')
      · obtain ⟨rfl, hslash⟩ := hline
        obtain ⟨s, rfl⟩ := List.head?_eq_some_iff.mp hslash
        exact parse_or_of (parse_lineComment s) _
      have hsecond : parse (twice '/' '/') (c :: s) = none :=
        parse_twice_none fun hc hd => hline ⟨Option.some.inj hc, hd⟩
      refine parse_or_of_none (parse_right_none hsecond _) ?_
      by_cases hblock : c = '/' ∧ s.head? = some (CodePoint.ofChar '*')
      · obtain ⟨rfl, hstar⟩ := hblock
        obtain ⟨s, rfl⟩ := List.head?_eq_some_iff.mp hstar
        exact parse_blockComment s
      have hthird : parse (twice '/' '*') (c :: s) = none :=
        parse_twice_none fun hc hd => hblock ⟨Option.some.inj hc, hd⟩
      have hnone : Text.behindBlank? (c :: s) = none := by
        by_cases hslash : c = '/'
        · subst hslash
          exact Text.behindBlank?_slash (fun hd => hline ⟨rfl, hd⟩) fun hd => hblock ⟨rfl, hd⟩
        · exact Text.behindBlank?_cons (Bool.eq_false_iff.mpr hspace) hslash s
      rw [hnone]
      exact parse_right_none hthird _

theorem parse_blank_of_none (h : Text.behindBlank? s = none) : parse blank s = some ((), s) := by
  have hgap := parse_gap s
  rw [h] at hgap
  exact (parse_rule _ s).trans (parse_map_of _ (parse_star_none hgap))

/-- Behind a blank, blanks are skipped as if it were not there. -/
theorem parse_blank_of_behindBlank? (h : Text.behindBlank? s = some t) :
    parse blank s = parse blank t := by
  have hgap := parse_gap s
  have hlt := Text.length_lt_of_behindBlank? h
  rw [h] at hgap
  have hstar : parse (.star gap) s =
      (parse (.star gap) t).map fun (xs, rest) => (() :: xs, rest) := by
    rw [parse_star, hgap]
    exact if_neg (Nat.ne_of_lt hlt)
  have hskip : ∀ u, parse blank u = (parse (.star gap) u).map fun (_, rest) => ((), rest) :=
    fun u => (parse_rule _ u).trans (parse_map _ _ u)
  rw [hskip, hskip, hstar, Option.map_map]
  rfl

/-- Skipping blanks never fails, and stops where none stands. -/
theorem exists_parse_blank (s : Text) :
    ∃ t, parse blank s = some ((), t) ∧ Text.behindBlank? t = none := by
  induction h : s.length using Nat.strongRecOn generalizing s with
  | _ n ih =>
    subst h
    cases hbehind : Text.behindBlank? s with
    | none => exact ⟨s, parse_blank_of_none hbehind, hbehind⟩
    | some t =>
      rw [parse_blank_of_behindBlank? hbehind]
      exact ih t.length (Text.length_lt_of_behindBlank? hbehind) t rfl

end Source

end RuleTypes
