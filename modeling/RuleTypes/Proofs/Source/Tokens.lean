import RuleTypes.Proofs.Source.Parse
import RuleTypes.Proofs.Text.Delimited

/-!
# Tokens of grammar sources

What the nonterminals of single tokens read: blanks, identifiers, string literals, character classes
and code blocks.

* `parse_blank`: no blank is read where none stands.
* `parse_units`: text up to a mark, with escaped marks.
* `parse_codeBlock`: a code block is read where a brace opens one that is closed, up to the brace
  that closes it.
-/

namespace RuleTypes

/-- Whether a text begins with neither white space nor a comment. -/
def Text.isSolid : Text → Bool
  | [] => true
  | c :: s =>
    !c.isSpace && !(c = '/' && (s.head? = some (CodePoint.ofChar '/') ||
      s.head? = some (CodePoint.ofChar '*')))

theorem Text.isSolid_cons {c : CodePoint} (hspace : c.isSpace = false) (hslash : c ≠ '/')
    (s : Text) : Text.isSolid (c :: s) = true := by
  simp [Text.isSolid, hspace, hslash]

namespace Source

open Expression

variable {s t rest : Text}

/-! ## Blanks -/

theorem parse_twice_none {c d : Char}
    (h : s.head? = some (CodePoint.ofChar c) → s.tail.head? ≠ some (CodePoint.ofChar d)) :
    parse (twice c d) s = none := by
  cases s with
  | nil => exact parse_right_none (parse_char_nil c) _
  | cons e s =>
    by_cases hc : e = c
    · subst hc
      refine parse_right_of_none (parse_char c s) ?_
      cases s with
      | nil => exact parse_char_nil d
      | cons f s => exact parse_char_none (fun hd => h rfl (congrArg some hd)) s
    · exact parse_right_none (parse_char_none hc s) _

theorem parse_blank (h : s.isSolid = true) : parse blank s = some ((), s) := by
  have hspace : parse (.satisfy CodePoint.isSpace) s = none := by
    cases s with
    | nil => rfl
    | cons c s =>
      rw [parse_satisfy_cons, if_neg]
      intro hc
      simp [Text.isSolid, hc] at h
  have hcomment : ∀ d : Char, d = '/' ∨ d = '*' → parse (twice '/' d) s = none := by
    intro d hd
    refine parse_twice_none fun hslash hnext => ?_
    cases s with
    | nil => cases hslash
    | cons c s =>
      rw [List.head?_cons] at hslash
      rw [List.tail_cons] at hnext
      rcases hd with rfl | rfl <;> simp [Text.isSolid, Option.some.inj hslash, hnext] at h
  refine (parse_rule _ s).trans (parse_map_of _ (parse_star_none ?_))
  refine parse_or_of_none (parse_map_none _ hspace) (parse_or_of_none ?_ ?_)
  · exact parse_right_none (hcomment '/' (.inl rfl)) _
  · exact parse_right_none (hcomment '*' (.inr rfl)) _

theorem parse_token (c : Char) (h : s.isSolid = true) :
    parse (token c) (CodePoint.ofChar c :: s) = some (CodePoint.ofChar c, s) :=
  parse_left_of (parse_char c s) (parse_blank h)

theorem parse_token_none {c : Char} {d : CodePoint} (h : d ≠ c) (s : Text) :
    parse (token c) (d :: s) = none :=
  parse_left_none (parse_char_none h s) _

/-! ## Words -/

/-- Whether a text does not go on with a letter, a digit or an underscore. -/
def endsWord (s : Text) : Bool := s.head?.all fun c => !c.isWord

theorem takeWhile_of_all {p : CodePoint → Bool} (hs : s.all p = true)
    (ht : t.head?.all (fun c => !p c) = true) :
    (s ++ t).takeWhile p = s ∧ (s ++ t).dropWhile p = t := by
  rw [List.takeWhile_append_of_pos (List.all_eq_true.mp hs),
    List.dropWhile_append_of_pos (List.all_eq_true.mp hs)]
  cases t with
  | nil => exact ⟨List.append_nil s, rfl⟩
  | cons c t =>
    have hc : ¬ p c = true := by simpa using ht
    rw [List.takeWhile_cons_of_neg hc, List.dropWhile_cons_of_neg hc, List.append_nil]
    exact ⟨rfl, rfl⟩

theorem parse_identifier {name : Text} (hname : name.isIdentifier = true)
    (hrest : endsWord rest = true) :
    parse (rule .identifier) (name ++ rest) = some (name, rest) := by
  obtain ⟨c, name, rfl, hc, hword⟩ := Text.exists_cons_of_isIdentifier hname
  obtain ⟨htake, hdrop⟩ := takeWhile_of_all hword hrest
  have hfirst : parse (.satisfy CodePoint.isWordStart) (c :: (name ++ rest)) =
      some (c, name ++ rest) := by
    rw [parse_satisfy_cons, if_pos hc]
  have hothers := parse_star_satisfy CodePoint.isWord (name ++ rest)
  rw [htake, hdrop] at hothers
  exact (parse_rule _ _).trans (parse_source_of (c :: name) (parse_right_of hfirst hothers))

theorem parse_identifier_none {c : CodePoint} (h : c.isWordStart = false) (s : Text) :
    parse (rule .identifier) (c :: s) = none := by
  refine (parse_rule _ _).trans (parse_source_none (parse_right_none ?_ _))
  rw [parse_satisfy_cons, if_neg (by rw [h]; exact Bool.false_ne_true)]

/-- No blank begins with a digit. -/
theorem isSolid_digits {digits : Text} (hdigits : digits.all CodePoint.isDigit = true)
    (hne : digits ≠ []) (s : Text) : Text.isSolid (digits ++ s) = true := by
  obtain ⟨c, digits, rfl⟩ := List.exists_cons_of_ne_nil hne
  rw [List.all_cons, Bool.and_eq_true] at hdigits
  obtain ⟨hlo, hhi⟩ : 48 ≤ c.toNat ∧ c.toNat ≤ 57 := by
    simpa [CodePoint.isDigit, CodePoint.inRange] using hdigits.1
  refine Text.isSolid_cons ?_ ?_ (digits ++ s)
  · simp only [CodePoint.isSpace, Bool.or_eq_false_iff, Bool.and_eq_false_iff,
      decide_eq_false_iff_not]
    omega
  · rintro rfl
    exact absurd hlo (by decide)

/-- A run of digits is read up to its end. -/
theorem parse_digits {digits : Text} (hdigits : digits.all CodePoint.isDigit = true)
    (hne : digits ≠ []) (hrest : rest.head?.all (fun c => !c.isDigit) = true) :
    parse (.source (.plus (.satisfy CodePoint.isDigit))) (digits ++ rest) =
      some (digits, rest) := by
  obtain ⟨c, digits, rfl⟩ := List.exists_cons_of_ne_nil hne
  rw [List.all_cons, Bool.and_eq_true] at hdigits
  obtain ⟨htake, hdrop⟩ := takeWhile_of_all hdigits.2 hrest
  have hfirst : parse (.satisfy CodePoint.isDigit) (c :: (digits ++ rest)) =
      some (c, digits ++ rest) := by
    rw [parse_satisfy_cons, if_pos hdigits.1]
  have hothers := parse_star_satisfy CodePoint.isDigit (digits ++ rest)
  rw [htake, hdrop] at hothers
  exact parse_source_of (c :: digits) (parse_plus_of hfirst hothers)

theorem parse_flag (h : endsWord rest = true) :
    parse flag (CodePoint.ofChar 'i' :: rest) = some ((), rest) := by
  refine parse_map_of _ (parse_left_of (parse_char 'i' rest) (parse_notAt_of ?_))
  cases rest with
  | nil => rfl
  | cons c rest =>
    rw [parse_satisfy_cons, if_neg]
    simpa [endsWord] using h

/-- No flag is read where a word ends. -/
theorem parse_flag_endsWord (h : endsWord s = true) : parse flag s = none := by
  refine parse_map_none _ (parse_left_none ?_ _)
  cases s with
  | nil => exact parse_char_nil _
  | cons c s =>
    refine parse_char_none ?_ s
    rintro rfl
    cases h

/-! ## Marks -/

/-- One code point between marks, or two where the first is a backslash. -/
def unit (mark : Char) : Expression CodePoint :=
  .satisfy (fun c => c ≠ mark && c ≠ '\\') <|> escaped

theorem parse_unit {mark : Char} {c : CodePoint} (hmark : c ≠ mark) (hback : c ≠ '\\') (s : Text) :
    parse (unit mark) (c :: s) = some (c, s) := by
  refine parse_or_of ?_ _
  rw [parse_satisfy_cons, if_pos (by simp [hmark, hback])]

theorem parse_unit_backslash (mark : Char) (c : CodePoint) (s : Text) :
    parse (unit mark) (CodePoint.ofChar '\\' :: c :: s) = some (c, s) := by
  refine parse_or_of_none ?_ (parse_right_of (parse_char _ _) ?_)
  · rw [parse_satisfy_cons, if_neg (by simp)]
  · exact parse_satisfy_cons _ c s

theorem parse_unit_none {mark : Char} {s : Text}
    (h : s = [] ∨ s = [CodePoint.ofChar '\\'] ∨ ∃ t, s = CodePoint.ofChar mark :: t)
    (hne : CodePoint.ofChar mark ≠ '\\') : parse (unit mark) s = none := by
  rcases h with rfl | rfl | ⟨t, rfl⟩
  · exact parse_or_of_none (parse_satisfy_nil _) (parse_right_none (parse_char_nil _) _)
  · refine parse_or_of_none ?_ (parse_right_of_none (parse_char _ _) (parse_satisfy_nil _))
    rw [parse_satisfy_cons, if_neg (by simp)]
  · refine parse_or_of_none ?_ (parse_right_none (parse_char_none hne t) _)
    rw [parse_satisfy_cons, if_neg (by simp)]

/-- The text up to a mark is read as far as there is one. -/
theorem parse_units {mark : Char} (hne : CodePoint.ofChar mark ≠ '\\') (s : Text) :
    ∃ units rest, parse (.star (unit mark)) s = some (units, rest) ∧
      parse (.char mark) rest =
        (Text.behindMark? mark false s).map fun t => (CodePoint.ofChar mark, t) := by
  induction h : s.length using Nat.strongRecOn generalizing s with
  | _ n ih =>
    subst h
    cases s with
    | nil =>
      exact ⟨[], [], parse_star_none (parse_unit_none (.inl rfl) hne), parse_char_nil mark⟩
    | cons c s =>
      by_cases hmark : c = mark
      · subst hmark
        refine ⟨[], _, parse_star_none (parse_unit_none (.inr (.inr ⟨s, rfl⟩)) hne), ?_⟩
        rw [parse_char, Text.behindMark?_mark]
        rfl
      · by_cases hback : c = '\\'
        · subst hback
          rw [Text.behindMark?_backslash hmark]
          cases s with
          | nil =>
            exact ⟨[], _, parse_star_none (parse_unit_none (.inr (.inl rfl)) hne),
              parse_char_none hmark []⟩
          | cons d s =>
            obtain ⟨units, rest, hunits, hrest⟩ :=
              ih s.length (by simp only [List.length_cons]; omega) s rfl
            exact ⟨d :: units, rest, parse_star_of rfl (parse_unit_backslash mark d s) hunits,
              hrest⟩
        · obtain ⟨units, rest, hunits, hrest⟩ := ih s.length (by simp) s rfl
          rw [Text.behindMark?_cons hmark hback]
          exact ⟨c :: units, rest, parse_star_of rfl (parse_unit hmark hback s) hunits, hrest⟩

theorem parse_char_eq_some {c : Char} {d : CodePoint} (h : parse (.char c) s = some (d, t)) :
    s = CodePoint.ofChar c :: t := by
  cases s with
  | nil => rw [parse_char_nil] at h; cases h
  | cons e s =>
    by_cases he : e = c
    · subst he
      rw [parse_char] at h
      rw [(Prod.mk.inj (Option.some.inj h)).2]
    · rw [parse_char_none he] at h; cases h

/-- A text up to a mark is the text that is read. -/
theorem parse_marked {mark : Char} (hne : CodePoint.ofChar mark ≠ '\\')
    (h : Text.behindMark? mark false s = some t) :
    ∃ units, parse (.star (unit mark)) s = some (units, CodePoint.ofChar mark :: t) := by
  obtain ⟨units, rest, hunits, hrest⟩ := parse_units hne s
  rw [h] at hrest
  obtain rfl := parse_char_eq_some hrest
  exact ⟨units, hunits⟩

/-- A string literal is read up to its second quote. -/
theorem parse_quoted {mark : Char} (hne : CodePoint.ofChar mark ≠ '\\') {body : Text}
    (h : Text.behindMark? mark false (body ++ CodePoint.ofChar mark :: rest) = some rest) :
    parse (quoted mark) (CodePoint.ofChar mark :: (body ++ CodePoint.ofChar mark :: rest)) =
      some (body, rest) := by
  obtain ⟨units, hunits⟩ := parse_marked hne h
  exact parse_left_of (parse_right_of (parse_char _ _) (parse_source_of body hunits))
    (parse_char _ _)

theorem parse_quoted_none {mark : Char} {c : CodePoint} (h : c ≠ mark) (s : Text) :
    parse (quoted mark) (c :: s) = none :=
  parse_left_none (parse_right_none (parse_char_none h s) _) _

theorem parse_stringLiteral_none {c : CodePoint} (hdouble : c ≠ '"') (hsingle : c ≠ '\'')
    (s : Text) : parse (rule .stringLiteral) (c :: s) = none :=
  (parse_rule _ _).trans
    (parse_or_of_none (parse_quoted_none hdouble s) (parse_quoted_none hsingle s))

/-- A character class is read as far as its bracket and the letter behind it. -/
theorem parse_charClass {pattern : Text} (h : pattern.isClass = true)
    (hrest : endsWord rest = true) (hsolid : rest.isSolid = true) :
    parse (rule .charClass) (pattern ++ rest) = some (.charClass pattern, rest) := by
  obtain ⟨pattern, rfl, hpattern⟩ := Text.exists_cons_of_isClass h
  have hclass : ∃ flags, parse (.char '[' *> .star (unit ']') *> .char ']' *> .opt flag)
      (CodePoint.ofChar '[' :: pattern ++ rest) = some (flags, rest) := by
    rcases hpattern with hp | hp
    · obtain ⟨units, hunits⟩ := parse_marked (by decide) (Text.behindMark?_append hp rest)
      exact ⟨none, parse_right_of (parse_right_of (parse_right_of (parse_char _ _) hunits)
        (parse_char _ _)) (parse_opt_none (parse_flag_endsWord hrest))⟩
    · obtain ⟨units, hunits⟩ := parse_marked (by decide) (Text.behindMark?_append hp rest)
      exact ⟨some (), parse_right_of (parse_right_of (parse_right_of (parse_char _ _) hunits)
        (parse_char _ _)) (parse_opt_of (parse_flag hrest))⟩
  obtain ⟨flags, hflags⟩ := hclass
  exact (parse_rule _ _).trans (parse_left_of
    (parse_map_of _ (parse_source_of (CodePoint.ofChar '[' :: pattern) hflags))
    (parse_blank hsolid))

theorem parse_charClass_none {c : CodePoint} (h : c ≠ '[') (s : Text) :
    parse (rule .charClass) (c :: s) = none := by
  refine (parse_rule _ _).trans (parse_left_none (parse_map_none _ (parse_source_none ?_)) _)
  exact parse_right_none (parse_right_none (parse_right_none (parse_char_none h s) _) _) _

/-! ## Code blocks -/

/-- Whether a code point is no brace. -/
def isPlain (c : CodePoint) : Bool := c ≠ '{' && c ≠ '}'

/-- A run of code points that are no braces, or a code block. -/
def codePart : Expression Unit := skip (.plus (.satisfy isPlain)) <|> skip (rule .codeBlock)

theorem parse_codeBody_of {parts : List Unit} (h : parse (.star codePart) s = some (parts, t)) :
    parse (rule .codeBody) s = some ((), t) :=
  (parse_rule _ s).trans (parse_map_of _ h)

theorem parse_codeBlock_of
    (hbody : parse (rule .codeBody) s = some ((), CodePoint.ofChar '}' :: t)) :
    parse (rule .codeBlock) (CodePoint.ofChar '{' :: s) =
      some ((CodePoint.ofChar '{' :: s).take (s.length + 1 - t.length), t) := by
  refine (parse_rule _ _).trans ((parse_source _ _).trans ?_)
  rw [parse_right_of (parse_right_of (parse_char _ _) hbody) (parse_char _ _)]
  rfl

theorem parse_codeBlock_none (h : s.head? ≠ some (CodePoint.ofChar '{')) :
    parse (rule .codeBlock) s = none := by
  refine (parse_rule _ _).trans
    (parse_source_none (parse_right_none (parse_right_none ?_ _) _))
  cases s with
  | nil => exact parse_char_nil _
  | cons c s => exact parse_char_none (fun hc => h (congrArg some hc)) s

/-- A run of code points that are no braces closes nothing. -/
theorem parse_run {c : CodePoint} (hopen : c ≠ '{') (hclose : c ≠ '}') (s : Text) :
    ∃ run rest, parse (.plus (.satisfy isPlain)) (c :: s) = some (run, rest) ∧
      rest.length ≤ s.length ∧ Text.behindBrace? 0 rest = Text.behindBrace? 0 (c :: s) := by
  have hfirst : parse (.satisfy isPlain) (c :: s) = some (c, s) :=
    (parse_satisfy_cons isPlain c s).trans (if_pos (by simp [isPlain, hopen, hclose]))
  refine ⟨_, _, parse_plus_of hfirst (parse_star_satisfy isPlain s), ?_, ?_⟩
  · exact (List.dropWhile_sublist _).length_le
  · rw [Text.behindBrace?_cons hopen hclose]
    clear hfirst
    induction s with
    | nil => rfl
    | cons d s ih =>
      by_cases hd : d ≠ '{' ∧ d ≠ '}'
      · rw [List.dropWhile_cons_of_pos (by simp [isPlain, hd]), ih,
          Text.behindBrace?_cons hd.1 hd.2]
      · rw [List.dropWhile_cons_of_neg (by simpa [isPlain] using hd)]

theorem parse_run_none {c : CodePoint} (h : isPlain c = false) (s : Text) :
    parse (skip (.plus (.satisfy isPlain))) (c :: s) = none := by
  refine parse_map_none _ (parse_plus_none ?_)
  rw [parse_satisfy_cons, if_neg (by rw [h]; exact Bool.false_ne_true)]

/-- No part of a block begins at its end. -/
theorem parse_codePart_none (h : s = [] ∨ ∃ t, s = CodePoint.ofChar '}' :: t) :
    parse codePart s = none := by
  rcases h with rfl | ⟨t, rfl⟩
  · exact parse_or_of_none (parse_map_none _ (parse_plus_none (parse_satisfy_nil _)))
      (parse_map_none _ (parse_codeBlock_none (by simp)))
  · refine parse_or_of_none (parse_run_none (by decide) t) (parse_map_none _ ?_)
    exact parse_codeBlock_none fun h => absurd (Option.some.inj h) (by decide)

/-- Where a block is not closed, no block is read. -/
theorem parse_codeBlock_open_none {parts : List Unit}
    (hparts : parse (.star codePart) s = some (parts, t)) (ht : parse (.char '}') t = none) :
    parse (rule .codeBlock) (CodePoint.ofChar '{' :: s) = none :=
  (parse_rule _ _).trans (parse_source_none (parse_right_of_none
    (parse_right_of (parse_char _ _) (parse_codeBody_of hparts)) ht))

/-- What stands inside a block is read up to the brace that closes it. Where none does, no brace
that closes follows what is read. -/
theorem parse_codeParts (s : Text) :
    ∃ parts rest, parse (.star codePart) s = some (parts, rest) ∧
      parse (.char '}') rest =
        (Text.behindBrace? 0 s).map fun t => (CodePoint.ofChar '}', t) := by
  induction h : s.length using Nat.strongRecOn generalizing s with
  | _ n ih =>
    subst h
    cases s with
    | nil => exact ⟨[], [], parse_star_none (parse_codePart_none (.inl rfl)), parse_char_nil _⟩
    | cons c s =>
      by_cases hopen : c = '{'
      · subst hopen
        have hrun := parse_run_none (show isPlain (CodePoint.ofChar '{') = false by decide) s
        obtain ⟨parts, rest, hparts, hrest⟩ := ih s.length (by simp) s rfl
        rw [Text.behindBrace?_open, Text.behindBrace?_add 0 0 s]
        cases hs : Text.behindBrace? 0 s with
        | none =>
          -- The block is not closed, so it is no block and the reading stops before it.
          rw [hs] at hrest
          have hblock := parse_codeBlock_open_none hparts hrest
          exact ⟨[], _, parse_star_none (parse_or_of_none hrun (parse_map_none _ hblock)),
            parse_char_none (by decide) s⟩
        | some t =>
          rw [hs] at hrest
          obtain rfl := parse_char_eq_some hrest
          have hlt := Text.length_lt_of_behindBrace? hs
          obtain ⟨parts', rest', hparts', hrest'⟩ :=
            ih t.length (by simp only [List.length_cons]; omega) t rfl
          have hblock := parse_codeBlock_of (parse_codeBody_of hparts)
          exact ⟨() :: parts', rest',
            parse_star_of rfl (parse_or_of_none hrun (parse_map_of _ hblock)) hparts', hrest'⟩
      · by_cases hclose : c = '}'
        · subst hclose
          refine ⟨[], _, parse_star_none (parse_codePart_none (.inr ⟨s, rfl⟩)), ?_⟩
          rw [parse_char, Text.behindBrace?_close_zero]
          rfl
        · obtain ⟨run, rest, hread, hle, hsame⟩ := parse_run hopen hclose s
          obtain ⟨parts, rest', hparts, hrest⟩ :=
            ih rest.length (by simp only [List.length_cons]; omega) rest rfl
          rw [← hsame]
          exact ⟨() :: parts, rest', parse_star_of rfl (parse_or_of (parse_map_of _ hread) _)
            hparts, hrest⟩

/-- A code block is read where a brace opens one that is closed, up to the brace that closes it. -/
theorem parse_codeBlock (s : Text) :
    parse (rule .codeBlock) (CodePoint.ofChar '{' :: s) =
      (Text.behindBrace? 0 s).map fun t =>
        ((CodePoint.ofChar '{' :: s).take (s.length + 1 - t.length), t) := by
  obtain ⟨parts, rest, hparts, hrest⟩ := parse_codeParts s
  cases h : Text.behindBrace? 0 s with
  | none =>
    rw [h] at hrest
    exact parse_codeBlock_open_none hparts hrest
  | some t =>
    rw [h] at hrest
    obtain rfl := parse_char_eq_some hrest
    exact parse_codeBlock_of (parse_codeBody_of hparts)

/-- A block is read to its end. -/
theorem parse_codeBlock_append {code : Text} (h : code.isBlock = true) (rest : Text) :
    parse (rule .codeBlock) (code ++ rest) = some (code, rest) := by
  obtain ⟨code, rfl, hcode⟩ := Text.exists_cons_of_isBlock h
  have hlength :
      (code ++ rest).length + 1 - rest.length = (CodePoint.ofChar '{' :: code).length := by
    rw [List.length_append, List.length_cons]
    omega
  rw [List.cons_append, parse_codeBlock, Text.behindBrace?_append hcode rest, Option.map_some,
    List.nil_append, hlength, ← List.cons_append, List.take_left]

end Source
end RuleTypes
