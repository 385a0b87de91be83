import RuleTypes.Proofs.Source.Phrases
import RuleTypes.Proofs.Source.Seam

/-!
# Sources one behind the other

Every phrase of a grammar source keeps to its text, so the last rule of a source takes nothing from
a source on the lines behind it.

* `keeps_choice`: choices of any depth keep to their text.
* `parse_rules_join`: rules are read up to the seam, and the rules of the seam behind them.
* `readRules_append`: the rules of two sources one behind the other.
-/

namespace RuleTypes

namespace CodePoint

theorem isWord_of_isWordStart {c : CodePoint} (h : c.isWordStart = true) : c.isWord = true := by
  simp only [isWordStart, isWord, isAlphanumeric, Bool.or_eq_true] at h ⊢
  exact h.imp_left .inl

theorem isDigit_of_isWordStart {c : CodePoint} (h : c.isWordStart = true) : c.isDigit = false := by
  simp only [isWordStart, isLetter, isUpper, isLower, inRange, Bool.or_eq_true, Bool.and_eq_true,
    decide_eq_true_eq] at h
  refine Bool.eq_false_iff.mpr fun hdigit => ?_
  simp only [isDigit, inRange, Bool.and_eq_true, decide_eq_true_eq] at hdigit
  have hhi : c.toNat ≤ 57 := hdigit.2
  rcases h with (⟨hlo, -⟩ | ⟨hlo, -⟩) | rfl
  · have : 65 ≤ c.toNat := hlo
    omega
  · have : 97 ≤ c.toNat := hlo
    omega
  · exact absurd hhi (by decide)

theorem isWord_of_isDigit {c : CodePoint} (h : c.isDigit = true) : c.isWord = true := by
  simp only [isWord, isAlphanumeric, h, Bool.or_true, Bool.true_or]

/-- Letters, digits and underscores are lexemes wherever they stand. -/
theorem isMark_of_isWord {c : CodePoint} (h : c.isWord = true) : c.isMark = true := by
  have hrange : 48 ≤ c.toNat ∧ c.toNat ≤ 122 ∧ c.toNat ≠ 91 := by
    simp only [isWord, isAlphanumeric, isLetter, isUpper, isLower, isDigit, inRange,
      Bool.or_eq_true, Bool.and_eq_true, decide_eq_true_eq] at h
    rcases h with ((⟨hlo, hhi⟩ | ⟨hlo, hhi⟩) | ⟨hlo, hhi⟩) | rfl
    · have : 65 ≤ c.toNat ∧ c.toNat ≤ 90 := ⟨hlo, hhi⟩
      omega
    · have : 97 ≤ c.toNat ∧ c.toNat ≤ 122 := ⟨hlo, hhi⟩
      omega
    · have : 48 ≤ c.toNat ∧ c.toNat ≤ 57 := ⟨hlo, hhi⟩
      omega
    · decide
  have hspace : c.isSpace = false := by
    simp only [isSpace, Bool.or_eq_false_iff, Bool.and_eq_false_iff, decide_eq_false_iff_not]
    omega
  have hne : ∀ d : Char, ¬ (48 ≤ d.toNat ∧ d.toNat ≤ 122 ∧ d.toNat ≠ 91) → c ≠ d := by
    rintro d hd rfl
    exact hd hrange
  simp [isMark, hspace, hne '{' (by decide), hne '"' (by decide), hne '\'' (by decide),
    hne '[' (by decide), hne '/' (by decide)]

end CodePoint

namespace Source

open Expression Text

variable {α : Type} {n : Nat} {m : Seam} {b : Side} {e : Expression α}

/-! ## The end of a text -/

theorem ne_of_isWordStart {c : CodePoint} {d : Char} (h : c.isWordStart = true)
    (hd : (CodePoint.ofChar d).isWordStart = false) : c ≠ d := by
  rintro rfl
  rw [h] at hd
  cases hd

/-- What tells a rule from a reference begins with an equals sign or a quote. -/
theorem exists_cons_of_ruleHead {s : Text} (h : (parse (rule .ruleHead) s).isSome = true) :
    ∃ c t, s = c :: t ∧ (c = '=' ∨ c = '"' ∨ c = '\'') := by
  cases s with
  | nil => cases h
  | cons c s =>
    refine ⟨c, s, rfl, Decidable.byContradiction fun hc => ?_⟩
    simp only [not_or] at hc
    rw [parse_ruleHead_none hc.2.1 hc.2.2 hc.1] at h
    cases h

theorem exists_cons_of_beginsRule {s : Text} (h : BeginsRule s) :
    ∃ c t, s = c :: t ∧ c.isWordStart = true := by
  obtain ⟨name, t, u, hname, -⟩ := h
  cases s with
  | nil => cases hname
  | cons c s =>
    refine ⟨c, s, rfl, Decidable.byContradiction fun hc => ?_⟩
    rw [parse_identifier_none (Bool.eq_false_iff.mpr hc)] at hname
    cases hname

/-- Behind the seam stands nothing, or the name of a rule. -/
theorem Seam.ending_cases (m : Seam) :
    m.ending = [] ∨ ∃ c s, m.ending = c :: s ∧ c.isWordStart = true :=
  m.ending_spec.imp_right exists_cons_of_beginsRule

/-- What begins no rule is not read behind the seam. -/
theorem keeps_between_of_first (he : Keeps n m.inside b e) (hnil : parse e [] = none)
    (hcons : ∀ c s, c.isWordStart = true → parse e (c :: s) = none) : Keeps n m.between b e := by
  refine keeps_between he hnil ?_
  rcases m.ending_cases with hending | ⟨c, s, hs, hc⟩
  · rw [hending]
    exact hnil
  · rw [hs]
    exact hcons c s hc

/-! ## Tokens behind blanks -/

theorem keeps_char_between {c : Char} (hmark : (CodePoint.ofChar c).isMark = true)
    (hword : (CodePoint.ofChar c).isWordStart = false) : Keeps n m.between m.inside (.char c) :=
  keeps_between_of_first (keeps_char hmark) (parse_char_nil c) fun _ s hd =>
    parse_char_none (ne_of_isWordStart hd hword) s

theorem keeps_token {c : Char} (hmark : (CodePoint.ofChar c).isMark = true)
    (hword : (CodePoint.ofChar c).isWordStart = false) : Keeps n m.between m.between (token c) :=
  keeps_left (keeps_char_between hmark hword) keeps_blank

theorem keeps_codeBlock_between : Keeps n m.between m.inside (rule .codeBlock) :=
  keeps_between_of_first keeps_codeBlock rfl fun c s hc =>
    parse_codeBlock_none fun h => ne_of_isWordStart hc (by decide) (Option.some.inj h)

theorem keeps_stringLiteral_between : Keeps n m.between m.inside (rule .stringLiteral) :=
  keeps_between_of_first keeps_stringLiteral rfl fun _ s hc =>
    parse_stringLiteral_none (ne_of_isWordStart hc (by decide)) (ne_of_isWordStart hc (by decide)) s

theorem keeps_displayName : Keeps n m.between m.between (rule .displayName) :=
  keeps_rule (keeps_left keeps_stringLiteral_between keeps_blank)

theorem keeps_action : Keeps n m.between m.between (rule .action) :=
  keeps_rule (keeps_left keeps_codeBlock_between keeps_blank)

theorem keeps_pluck : Keeps n m.between m.between (rule .pluck) :=
  keeps_rule (keeps_map _ (keeps_token (by decide) (by decide)))

theorem keeps_ruleHead : Keeps n m.between m.inside (rule .ruleHead) :=
  keeps_rule (keeps_map _ (keeps_right (keeps_opt keeps_displayName)
    (keeps_char_between (by decide) (by decide))))

theorem keeps_identifier : Keeps n m.inside m.inside (rule .identifier) :=
  keeps_rule (keeps_source (keeps_right
    (keeps_satisfy fun _ hc => CodePoint.isMark_of_isWord (CodePoint.isWord_of_isWordStart hc))
    (keeps_star rfl (keeps_satisfy fun _ hc => CodePoint.isMark_of_isWord hc))))

theorem keeps_flag : Keeps n m.inside m.inside flag :=
  keeps_map _ (keeps_left (keeps_char (by decide))
    (keeps_notAt (keeps_satisfy fun _ hc => CodePoint.isMark_of_isWord hc)))

/-- The name of a rule is no label. -/
theorem parse_label_of_beginsRule {s : Text} (h : BeginsRule s) :
    parse (rule .label) s = none := by
  obtain ⟨name, t, u, hname, hblank, hhead⟩ := h
  obtain ⟨c, v, rfl, hc⟩ := exists_cons_of_ruleHead hhead
  refine (parse_rule _ _).trans (parse_left_of_none (parse_left_of hname hblank)
    (parse_token_none ?_ v))
  rcases hc with rfl | rfl | rfl <;> decide

theorem parse_label_ending (m : Seam) : parse (rule .label) m.ending = none := by
  rcases m.ending_spec with hending | hrule
  · rw [hending]
    rfl
  · exact parse_label_of_beginsRule hrule

theorem keeps_label : Keeps n m.between m.between (rule .label) :=
  keeps_between (keeps_rule (keeps_left (keeps_left keeps_identifier keeps_blank)
    (keeps_token (by decide) (by decide)))) rfl (parse_label_ending m)

/-- The name of a rule is no reference. -/
theorem parse_ruleRef_of_beginsRule {s : Text} (h : BeginsRule s) :
    parse (rule .ruleRef) s = none := by
  obtain ⟨name, t, u, hname, hblank, hhead⟩ := h
  refine (parse_rule _ _).trans (parse_map_none _
    (parse_left_of_none (parse_left_of hname hblank) ?_))
  rw [parse_notAt, if_pos hhead]

theorem parse_ruleRef_ending (m : Seam) : parse (rule .ruleRef) m.ending = none := by
  rcases m.ending_spec with hending | hrule
  · rw [hending]
    rfl
  · exact parse_ruleRef_of_beginsRule hrule

theorem keeps_ruleRef : Keeps n m.between m.between (rule .ruleRef) :=
  keeps_between (keeps_rule (keeps_map _ (keeps_left (keeps_left keeps_identifier keeps_blank)
    (keeps_notAt keeps_ruleHead)))) rfl (parse_ruleRef_ending m)

theorem keeps_literal : Keeps n m.between m.between (rule .literal) :=
  keeps_rule (keeps_map _ (keeps_seq keeps_stringLiteral_between
    (keeps_left (keeps_opt (keeps_rule keeps_flag)) keeps_blank)))

theorem keeps_charClass : Keeps n m.between m.between (rule .charClass) := by
  have hclass : Keeps n m.inside m.between (rule .charClass) := keeps_rule (keeps_left
    (keeps_map _ (keeps_source (keeps_right keeps_brackets (keeps_opt keeps_flag)))) keeps_blank)
  exact keeps_between_of_first hclass rfl fun _ s hc =>
    parse_charClass_none (ne_of_isWordStart hc (by decide)) s

theorem keeps_anyChar : Keeps n m.between m.between (rule .anyChar) :=
  keeps_rule (keeps_map _ (keeps_token (by decide) (by decide)))

theorem keeps_prefixSign : Keeps n m.between m.between (rule .prefixSign) :=
  keeps_rule (keeps_left (keeps_or (keeps_map _ (keeps_char_between (by decide) (by decide)))
    (keeps_or (keeps_map _ (keeps_char_between (by decide) (by decide)))
      (keeps_map _ (keeps_char_between (by decide) (by decide))))) keeps_blank)

theorem keeps_operatorSuffix : Keeps n m.between m.between (rule .operatorSuffix) :=
  keeps_rule (keeps_left (keeps_or (keeps_map _ (keeps_char_between (by decide) (by decide)))
    (keeps_or (keeps_map _ (keeps_char_between (by decide) (by decide)))
      (keeps_map _ (keeps_char_between (by decide) (by decide))))) keeps_blank)

theorem keeps_semanticPredicate : Keeps n m.between m.between (rule .semanticPredicate) :=
  keeps_rule (keeps_map _ (keeps_seq
    (keeps_left (keeps_or (keeps_map _ (keeps_char_between (by decide) (by decide)))
      (keeps_map _ (keeps_char_between (by decide) (by decide)))) keeps_blank)
    (keeps_left keeps_codeBlock_between keeps_blank)))

/-! ## Ranges -/

theorem keeps_digits :
    Keeps n m.inside m.inside (.source (.plus (.satisfy CodePoint.isDigit))) := by
  have hdigit : Keeps n m.inside m.inside (.satisfy CodePoint.isDigit) :=
    keeps_satisfy fun _ hc => CodePoint.isMark_of_isWord (CodePoint.isWord_of_isDigit hc)
  exact keeps_source (keeps_map _ (keeps_seq hdigit (keeps_star rfl hdigit)))

theorem keeps_rangeBound : Keeps n m.inside m.inside (rule .rangeBound) :=
  keeps_rule (keeps_or (keeps_map _ keeps_digits)
    (keeps_or (keeps_map _ keeps_identifier) (keeps_map _ keeps_codeBlock)))

theorem keeps_bound : Keeps n m.inside m.inside bound :=
  keeps_map _ (keeps_opt keeps_rangeBound)

/-- Whether neither the second bound, nor a delimiter, nor the end of a range follows. -/
def EndsNoRange (s : Text) : Prop :=
  parse (twice '.' '.') s = none ∧ parse (token ',') s = none ∧ parse (token '|') s = none

theorem endsNoRange_nil : EndsNoRange [] := ⟨rfl, rfl, rfl⟩

theorem endsNoRange_cons {c : CodePoint} (hdot : c ≠ '.') (hcomma : c ≠ ',') (hbar : c ≠ '|')
    (s : Text) : EndsNoRange (c :: s) :=
  ⟨parse_right_none (parse_char_none hdot s) _, parse_token_none hcomma s, parse_token_none hbar s⟩

theorem endsNoRange_ending (m : Seam) : EndsNoRange m.ending := by
  rcases m.ending_cases with hending | ⟨c, s, hs, hc⟩
  · rw [hending]
    exact endsNoRange_nil
  · rw [hs]
    exact endsNoRange_cons (ne_of_isWordStart hc (by decide)) (ne_of_isWordStart hc (by decide))
      (ne_of_isWordStart hc (by decide)) s

/-- Behind the seam the name of a rule is read as a bound that is no number, and no range goes on
behind it. -/
theorem exists_parse_bound_ending (m : Seam) :
    ∃ t u, parse bound m.ending = some (none, t) ∧ parse blank t = some ((), u) ∧
      EndsNoRange u := by
  rcases m.ending_spec with hending | hrule
  · rw [hending]
    exact ⟨[], [], rfl, rfl, endsNoRange_nil⟩
  · obtain ⟨c, s, hs, hc⟩ := exists_cons_of_beginsRule hrule
    obtain ⟨name, t, u, hname, hblank, hhead⟩ := hrule
    obtain ⟨d, v, rfl, hd⟩ := exists_cons_of_ruleHead hhead
    have hdigits : parse (.source (.plus (.satisfy CodePoint.isDigit))) m.ending = none := by
      rw [hs]
      refine parse_source_none (parse_plus_none ((parse_satisfy_cons _ c s).trans (if_neg ?_)))
      rw [CodePoint.isDigit_of_isWordStart hc]
      exact Bool.false_ne_true
    have hbound : parse (rule .rangeBound) m.ending = some (none, t) :=
      (parse_rule _ _).trans (parse_or_of_none (parse_map_none _ hdigits)
        (parse_or_of (parse_map_of _ hname) _))
    refine ⟨t, d :: v, parse_map_of _ (parse_opt_of hbound), hblank, ?_⟩
    rcases hd with rfl | rfl | rfl <;> exact endsNoRange_cons (by decide) (by decide) (by decide) v

/-- The dots before the second bound of a range. -/
def dots : Expression Unit := twice '.' '.' *> blank

theorem keeps_dots : Keeps n m.between m.between dots :=
  keeps_right (keeps_right (keeps_char_between (by decide) (by decide)) (keeps_char (by decide)))
    keeps_blank

/-- The second bound of a range, which may be missing. -/
def upperBound : Expression (Option Text) := dots *> bound <* blank

theorem exists_keepsAt_upperBound {s : Text} (hok : m.between.ok s) :
    ∃ u, EndsNoRange u ∧ KeepsAt m.between (m.behind u) (.opt upperBound) s := by
  have hkeeps := keeps_dots (m := m) s (Nat.lt_succ_self _) hok
  cases hdots : parse dots s with
  | none =>
    refine ⟨m.ending, endsNoRange_ending m, keepsAt_of_some (parse_opt_none ?_) hok Iff.rfl
      fun hlexes => parse_opt_none ?_⟩
    · exact parse_left_none (parse_right_none hdots _) _
    · exact parse_left_none (parse_right_none (hkeeps.refused hdots hlexes) _) _
  | some found =>
    obtain ⟨⟨⟩, t⟩ := found
    by_cases ht : t = []
    · -- The text ends behind the dots, where the name of a rule is read as the second bound.
      subst ht
      obtain ⟨p, u, hbound, hblank, hends⟩ := exists_parse_bound_ending m
      have hread : parse (.opt upperBound) s = some (some none, []) :=
        parse_opt_of (parse_left_of (parse_right_of hdots rfl) rfl)
      refine ⟨u, hends, keepsAt_of_some hread rfl (hkeeps.lexes hdots) fun hlexes => ?_⟩
      exact parse_opt_of (parse_left_of (parse_right_of (hkeeps.read hdots hlexes) hbound) hblank)
    · have hbound : KeepsAt m.between m.inside bound t :=
        keepsAt_behind rfl ht (keeps_bound t (Nat.lt_succ_self _) trivial)
      have hupper : KeepsAt m.between m.between upperBound s := by
        refine keepsAt_map _ (keepsAt_seq (keepsAt_map _ (keepsAt_seq hkeeps fun _ t' ht' => ?_))
          fun _ t' _ => keeps_blank t' (Nat.lt_succ_self _) trivial)
        rw [hdots] at ht'
        cases ht'
        exact hbound
      exact ⟨m.ending, endsNoRange_ending m,
        keepsAt_or (keepsAt_map some hupper) (keepsAt_pure none hok)⟩

/-- The bounds of a range keep to a text that goes on behind them. At its end the name of a rule may
be read as a bound, and then no range goes on. -/
theorem exists_keepsAt_rangeBounds {s : Text} (hok : m.between.ok s) :
    ∃ u, EndsNoRange u ∧ KeepsAt m.between (m.behind u) (rule .rangeBounds) s := by
  by_cases hs : s = []
  · subst hs
    obtain ⟨t, u, hbound, hblank, hends⟩ := exists_parse_bound_ending m
    refine ⟨u, hends, keepsAt_of_some (x := {}) (t := []) rfl rfl Iff.rfl fun _ => ?_⟩
    have hupper : parse upperBound u = none :=
      parse_left_none (parse_right_none (parse_right_none hends.1 _) _) _
    exact (parse_rule _ _).trans
      (parse_map_of _ (parse_seq_of (parse_left_of hbound hblank) (parse_opt_none hupper)))
  · have hbound : KeepsAt m.between m.between (bound <* blank) s :=
      keepsAt_behind rfl hs (keeps_left keeps_bound keeps_blank s (Nat.lt_succ_self _) trivial)
    obtain ⟨found, t, hfound⟩ := exists_parse_opt (rule .rangeBound) s
    have hminimum : parse bound s = some (found.join, t) := parse_map_of _ hfound
    obtain ⟨t, hblank, -⟩ := exists_parse_blank t
    have hread := parse_left_of hminimum hblank
    obtain ⟨u, hends, hupper⟩ := exists_keepsAt_upperBound (hbound.ok hread)
    refine ⟨u, hends, keepsAt_congr (parse_rule _)
      (keepsAt_map _ (keepsAt_seq hbound fun _ t' ht' => ?_))⟩
    rw [hread] at ht'
    cases ht'
    exact hupper

/-- A range in which choices keep to their text keeps to its own. -/
theorem keeps_repeatRange (hchoice : Keeps n m.between m.between (rule .choice)) :
    Keeps (n + 1) m.between m.between (rule .repeatRange) := by
  have hdelimiter : Keeps n m.between m.between (.opt (token ',' *> rule .choice)) :=
    keeps_opt (keeps_right (keeps_token (by decide) (by decide)) hchoice)
  have hbehind : Keeps n m.between m.between (.opt (token ',' *> rule .choice) <* token '|') :=
    keeps_left hdelimiter (keeps_token (by decide) (by decide))
  have hbar : Keeps (n + 1) m.between m.between (token '|') :=
    keeps_token (by decide) (by decide)
  intro s hs hok
  refine keepsAt_congr (parse_rule _) (keepsAt_map _ ?_)
  cases hread : parse (token '|') s with
  | none =>
    refine keepsAt_of_none (parse_seq_none (parse_right_none hread _) _) fun hlexes => ?_
    exact parse_seq_none (parse_right_none ((hbar s hs hok).refused hread hlexes) _) _
  | some found =>
    obtain ⟨c, t⟩ := found
    obtain ⟨u, hends, hbounds⟩ := exists_keepsAt_rangeBounds ((hbar s hs hok).ok hread)
    have hopen : KeepsAt m.between (m.behind u) (token '|' *> rule .rangeBounds) s := by
      refine keepsAt_map _ (keepsAt_seq (hbar s hs hok) fun _ t' ht' => ?_)
      rw [hread] at ht'
      cases ht'
      exact hbounds
    refine keepsAt_seq hopen fun k v hv => ?_
    by_cases hne : v = []
    · -- The text ends inside the range, so there is none.
      subst hne
      refine keepsAt_of_none rfl fun _ => ?_
      exact parse_left_of_none (parse_opt_none (parse_right_none hends.2.1 _)) hends.2.2
    · have hlt : v.length < s.length := length_lt_of_parse rfl hv
      exact keepsAt_behind (m.between_join hne) hne (hbehind v (by omega) (hopen.ok hv))

/-! ## Phrases -/

theorem keeps_group (hchoice : Keeps n m.between m.between (rule .choice)) :
    Keeps (n + 1) m.between m.between (rule .group) :=
  keeps_rule (keeps_map _ (keeps_left
    (keeps_map _ (keeps_seq_of_lt rfl (keeps_token (by decide) (by decide)) hchoice))
    (keeps_token (by decide) (by decide))))

theorem keeps_labeled (hchoice : Keeps n m.between m.between (rule .choice)) :
    Keeps (n + 1) m.between m.between (rule .labeled) := by
  have hprimary : Keeps (n + 1) m.between m.between (rule .primary) :=
    keeps_rule (keeps_or keeps_literal (keeps_or keeps_charClass (keeps_or keeps_anyChar
      (keeps_or keeps_ruleRef (keeps_group hchoice)))))
  have hsuffix : Keeps (n + 1) m.between m.between (rule .suffix) :=
    keeps_rule (keeps_or keeps_operatorSuffix (keeps_repeatRange hchoice))
  have hsuffixed : Keeps (n + 1) m.between m.between (rule .suffixed) :=
    keeps_rule (keeps_map _ (keeps_seq hprimary (keeps_opt hsuffix)))
  have hoperator : Keeps (n + 1) m.between m.between (rule .operatorExpr) :=
    keeps_rule (keeps_map _ (keeps_seq (keeps_opt keeps_prefixSign) hsuffixed))
  have hprefixed : Keeps (n + 1) m.between m.between (rule .prefixed) :=
    keeps_rule (keeps_or keeps_semanticPredicate hoperator)
  exact keeps_rule (keeps_map _ (keeps_seq (keeps_opt keeps_pluck)
    (keeps_seq (keeps_opt keeps_label) hprefixed)))

theorem keeps_actionExpr (hchoice : Keeps n m.between m.between (rule .choice)) :
    Keeps (n + 1) m.between m.between (rule .actionExpr) := by
  have hlabeled := keeps_labeled hchoice
  have hsequence : Keeps (n + 1) m.between m.between (rule .sequence) :=
    keeps_rule (keeps_map _ (keeps_seq hlabeled (keeps_star rfl hlabeled)))
  exact keeps_rule (keeps_map _ (keeps_seq hsequence (keeps_opt keeps_action)))

theorem parse_actionExpr_none {c : CodePoint} (h : opensElement c = false) (s : Text) :
    parse (rule .actionExpr) (c :: s) = none :=
  (parse_rule _ _).trans (parse_map_none _ (parse_seq_none
    ((parse_rule _ _).trans (parse_map_none _ (parse_seq_none (parse_labeled_none h s) _))) _))

/-- A slash between alternatives is none that a comment begins with. -/
theorem keeps_slash (h : Keeps n m.between m.between (rule .actionExpr)) :
    Keeps n m.between m.between (token '/' *> rule .actionExpr) := by
  intro s hs hok
  cases s with
  | nil =>
    refine keepsAt_of_none rfl fun _ => parse_right_none ?_ _
    rcases m.ending_cases with hending | ⟨c, s, hs, hc⟩
    · exact congrArg (parse (token '/')) hending
    · exact (congrArg (parse (token '/')) hs).trans
        (parse_token_none (ne_of_isWordStart hc (by decide)) s)
  | cons c s =>
    by_cases hslash : c = '/'
    · subst hslash
      have hline : s.head? ≠ some (CodePoint.ofChar '/') := by
        intro hline
        obtain ⟨s, rfl⟩ := List.head?_eq_some_iff.mp hline
        cases hok
      by_cases hblock : s.head? = some (CodePoint.ofChar '*')
      · -- The comment that begins here is not closed.
        refine keepsAt_of_none ?_ fun hlexes => absurd hlexes (not_lexes_comment hok hblock)
        obtain ⟨s, rfl⟩ := List.head?_eq_some_iff.mp hblock
        exact parse_right_of_none (parse_left_of (parse_char '/' _)
          (parse_blank_of_none (behindBlank?_cons rfl (by decide) s)))
          (parse_actionExpr_none (by decide) s)
      · have hchar : KeepsAt m.between m.inside (.char '/') (CodePoint.ofChar '/' :: s) :=
          keepsAt_of_some (parse_char '/' s) trivial (lexes_slash_iff hline hblock)
            fun _ => parse_char '/' _
        have htoken : KeepsAt m.between m.between (token '/') (CodePoint.ofChar '/' :: s) :=
          keepsAt_map _ (keepsAt_seq hchar fun _ t _ => keeps_blank t (Nat.lt_succ_self _) trivial)
        exact keepsAt_map _ (keepsAt_seq htoken fun _ t ht =>
          h t (Nat.lt_of_le_of_lt (length_le_of_parse ht) hs) (htoken.ok ht))
    · exact keepsAt_of_none (parse_right_none (parse_token_none hslash s) _) fun _ =>
        parse_right_none (parse_token_none hslash _) _

theorem keeps_choice (n : Nat) : Keeps n m.between m.between (rule .choice) := by
  induction n with
  | zero => intro s hs; cases hs
  | succ n ih =>
    have haction := keeps_actionExpr ih
    exact keeps_rule (keeps_map _ (keeps_seq haction (keeps_star rfl (keeps_slash haction))))

/-! ## Rules -/

theorem keeps_definition : Keeps n m.inside m.between (rule .rule) :=
  keeps_rule (keeps_map _ (keeps_seq (keeps_left keeps_identifier keeps_blank)
    (keeps_seq (keeps_left (keeps_opt keeps_displayName) (keeps_token (by decide) (by decide)))
      (keeps_left (keeps_choice n) (keeps_opt (keeps_token (by decide) (by decide)))))))

theorem keeps_initializers : Keeps n m.between m.between (.star (rule .initializer)) :=
  keeps_star rfl (keeps_rule (keeps_map _ (keeps_left
    (keeps_left keeps_codeBlock_between keeps_blank)
    (keeps_opt (keeps_token (by decide) (by decide))))))

/-- Rules are read up to the end of their text, and then the rules of the seam. -/
theorem parse_rules_join {vs : List Rule}
    (hvs : parse (.star (rule .rule)) m.ending = some (vs, []))
    {s : Text} {ws : List Rule} (hok : m.between.ok s)
    (hws : parse (.star (rule .rule)) s = some (ws, [])) :
    Lexes s ∧ parse (.star (rule .rule)) (m.between.join s) = some (ws ++ vs, []) := by
  induction h : s.length using Nat.strongRecOn generalizing s ws with
  | _ k ih =>
    subst h
    by_cases hne : s = []
    · subst hne
      rw [parse_star_none rfl] at hws
      cases hws
      exact ⟨.nil, hvs⟩
    · cases hrule : parse (rule .rule) s with
      | none =>
        rw [parse_star_none hrule] at hws
        cases hws
        exact absurd rfl hne
      | some found =>
        obtain ⟨w, t⟩ := found
        have hlt : t.length < s.length := length_lt_of_parse rfl hrule
        have hkeeps : KeepsAt m.between m.between (rule .rule) s :=
          keepsAt_behind rfl hne (keeps_definition s (Nat.lt_succ_self _) trivial)
        obtain ⟨ws', u, hstar⟩ := exists_parse_star (a := rule .rule) rfl t
        rw [parse_star_of rfl hrule hstar] at hws
        cases hws
        obtain ⟨hlexes, hread⟩ := ih t.length hlt (hkeeps.ok hrule) hstar rfl
        have hs := (hkeeps.lexes hrule).mpr hlexes
        exact ⟨hs, parse_star_of rfl (hkeeps.read hrule hs) hread⟩

/-! ## Sources -/

/-- Whether a source begins with code, behind its blanks. -/
def HasInitializer (source : Text) : Prop :=
  ∃ n s k t, Nonterminal.scan .blank source = .ok () n s ∧
    Nonterminal.scan .initializer s = .ok () k t

theorem parse_initializer_none {source s : Text} (h : ¬ HasInitializer source)
    (hblank : parse blank source = some ((), s)) : parse (rule .initializer) s = none := by
  cases hread : parse (rule .initializer) s with
  | none => rfl
  | some found =>
    obtain ⟨⟨⟩, t⟩ := found
    refine absurd ⟨source.length - s.length, s, s.length - t.length, t, ?_, ?_⟩ h
    · rw [scan_eq, show parse (rule .blank) source = _ from hblank]
    · rw [scan_eq, hread]

/-- Where a rule is read, a rule begins. -/
theorem beginsRule_of_rule {s t : Text} {written : Rule}
    (h : parse (rule .rule) s = some (written, t)) : BeginsRule s := by
  rw [parse_rule] at h
  obtain ⟨_, hparts, -⟩ := parse_map_eq_some.mp h
  obtain ⟨u, hname, hrest⟩ := parse_seq_eq_some.mp hparts
  obtain ⟨t, _, hname, hblank⟩ := parse_left_eq_some.mp hname
  obtain ⟨v, hhead, -⟩ := parse_seq_eq_some.mp hrest
  obtain ⟨w, _, hdisplay, hequals⟩ := parse_left_eq_some.mp hhead
  obtain ⟨x, _, hchar, -⟩ := parse_left_eq_some.mp hequals
  refine ⟨_, t, u, hname, hblank, ?_⟩
  rw [parse_rule, show parse (body .ruleHead) u = _ from
    parse_map_of _ (parse_right_of hdisplay hchar)]
  rfl

theorem beginsRule_of_parse {s : Text} {ws : List Rule}
    (h : parse (.star (rule .rule)) s = some (ws, [])) : s = [] ∨ BeginsRule s := by
  cases hrule : parse (rule .rule) s with
  | none =>
    rw [parse_star_none hrule] at h
    cases h
    exact .inl rfl
  | some found => exact .inr (beginsRule_of_rule hrule)

/-- What is read of a source: blanks, initializers and rules. -/
theorem parse_grammar_eq_some {s : Text} {ws : List Rule} :
    parse (rule .grammar) s = some (ws, []) ↔
      ∃ t initializers u, parse blank s = some ((), t) ∧
        parse (.star (rule .initializer)) t = some (initializers, u) ∧
        parse (.star (rule .rule)) u = some (ws, []) := by
  constructor
  · intro h
    rw [parse_rule] at h
    obtain ⟨initializers, u, hbefore, hrules⟩ := parse_right_eq_some.mp h
    obtain ⟨_, t, hblank, hinitializers⟩ := parse_right_eq_some.mp hbefore
    exact ⟨t, initializers, u, hblank, hinitializers, hrules⟩
  · rintro ⟨t, initializers, u, hblank, hinitializers, hrules⟩
    exact (parse_rule _ _).trans (parse_right_of (parse_right_of hblank hinitializers) hrules)

/-- **Sources compose.** Where the rules of two texts are read to the end and the second begins with
no initializer, the rules of the first and then those of the second are read of the two texts with a
line feed between them, whatever blanks and comments stand there. Decoded and simplified, they are
the rules of both as well. -/
theorem matches_append {s t : Text} {ws vs : List Rule} (hs : Matches s ws) (ht : Matches t vs)
    (hinitializer : ¬ HasInitializer t) :
    Matches (s ++ "\n" ++ t) (ws ++ vs) ∧
      ∀ rules others, ws.mapM Rule.lower = .ok rules → vs.mapM Rule.lower = .ok others →
        (ws ++ vs).mapM Rule.lower = .ok (rules ++ others) := by
  constructor
  · rw [matches_iff, parse_grammar_eq_some] at hs ht ⊢
    obtain ⟨ending, initializers, u, hblank, hnone, hrules⟩ := ht
    rw [parse_star_none (parse_initializer_none hinitializer hblank)] at hnone
    cases hnone
    let m : Seam :=
      { text := t
        ending := ending
        parse_blank := (parse_blank_of_behindBlank? (behindBlank?_space rfl t)).trans hblank
        ending_spec := beginsRule_of_parse hrules }
    obtain ⟨s₁, initializers, s₂, hblank₁, hinitializers, hrules₁⟩ := hs
    have hkeeps := keeps_blank (m := m) s (Nat.lt_succ_self _) trivial
    have hkeeps₁ := keeps_initializers (m := m) s₁ (Nat.lt_succ_self _) (hkeeps.ok hblank₁)
    obtain ⟨hlexes₂, hjoin⟩ := parse_rules_join (m := m) hrules (hkeeps₁.ok hinitializers) hrules₁
    have hlexes₁ := (hkeeps₁.lexes hinitializers).mpr hlexes₂
    have hlexes := (hkeeps.lexes hblank₁).mpr hlexes₁
    refine ⟨m.between.join s₁, initializers, m.between.join s₂, ?_,
      hkeeps₁.read hinitializers hlexes₁, hjoin⟩
    have hread := hkeeps.read hblank₁ hlexes
    rwa [List.append_assoc]
  · intro rules others h h'
    rw [List.mapM_append, h, h']
    rfl

/-- The first text has an initializer, a range with a delimiter and an action, and ends in a
reference and a comment that nothing ends but the line feed; the second begins with a comment and a
rule with an empty display name. -/
theorem matches_append_comment :
    let s : Text := "\x7bx\x7da'A'=b|1..n,','|/@l:(a)*\x7bf\x7d\nd=a//d"
    let t : Text := " /**/b\"\"=.\nc='x'i a"
    let single (p : Phrase .primary) (x : Phrase .suffix) : Phrase .element :=
      .element false none (.operand none p x)
    let ws : List Rule :=
      [⟨"a", some "A", .or
          (.alternative (.one (single (.reference "b") (.separated ⟨some "1", none⟩
            (.last (.alternative (.one (single (.literal "," false) .bare)) none))))) none)
          (.last (.alternative (.one (.element true (some "l") (.operand none
            (.group (.last (.alternative (.one (single (.reference "a") .bare)) none))) .star)))
              (some "\x7bf\x7d")))⟩,
        ⟨"d", none, .last (.alternative (.one (single (.reference "a") .bare)) none)⟩]
    let vs : List Rule :=
      [⟨"b", some "", .last (.alternative (.one (single .anyChar .bare)) none)⟩,
        ⟨"c", none, .last (.alternative (.cons (single (.literal "x" true) .bare)
          (.one (single (.reference "a") .bare))) none)⟩]
    Matches s ws ∧ Matches t vs ∧ ¬ HasInitializer t ∧ Matches (s ++ "\n" ++ t) (ws ++ vs) ∧
      ∀ rules others, ws.mapM Rule.lower = .ok rules → vs.mapM Rule.lower = .ok others →
        (ws ++ vs).mapM Rule.lower = .ok (rules ++ others) := by
  intro s t single ws vs
  have hs : Matches s ws := ⟨37, by set_option maxRecDepth 2000 in with_unfolding_all rfl⟩
  have ht : Matches t vs := ⟨19, by set_option maxRecDepth 2000 in with_unfolding_all rfl⟩
  have hinitializer : ¬ HasInitializer t := by
    rintro ⟨n, u, k, v, hblank, hinitializer⟩
    have hread : Nonterminal.scan .blank t = .ok () 5 (t.drop 5) := by
      set_option maxRecDepth 2000 in with_unfolding_all rfl
    have hfail : Nonterminal.scan .initializer (t.drop 5) = .fail := by
      set_option maxRecDepth 2000 in with_unfolding_all rfl
    rw [hread] at hblank
    cases hblank
    rw [hfail] at hinitializer
    cases hinitializer
  exact ⟨hs, ht, hinitializer, matches_append hs ht hinitializer⟩

end Source

end RuleTypes
