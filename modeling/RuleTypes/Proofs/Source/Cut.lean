import RuleTypes.Proofs.Source.Ahead

/-!
# Sources that are cut off

Where rules are read up to a place in a source, the text before it is read to its end when the rest
is cut off, and the same rules are read. Every phrase, from the inside out, is read of the text that
is cut off between the same kinds of places.

* `refuses_repeatRange`: behind an element a range that is refused is refused where the text is cut
  off as well.
* `cut_choice`: choices of any depth.
* `cut_definition`, `cut_initializer`: rules and initializers.
* `matches_of_cut`: the source before the rest is matched to its end.
-/

namespace RuleTypes.Source

open Expression Text

variable {α : Type} {v w : Text} {n : Nat} {p : Text → Prop}

/-! ## Characters -/

/-- A character and the blanks behind it. -/
theorem cut_token (c : Char) : Swaps w [] n (Begins [c]) Anywhere (token c) :=
  swaps_left (swaps_char c) swaps_blank_cut

/-- Alternatives that begin with characters of their own. -/
theorem swaps_char_or {e : Expression α} {cs : List Char} (c : Char) (f : CodePoint → α)
    (he : Swaps v w n (Begins cs) Anywhere e) :
    Swaps v w n (Begins (c :: cs)) Anywhere (f <$> .char c <|> e) := by
  refine swaps_or ((swaps_map f (swaps_char c)).weaken ?_) he ?_
    (refuses_map f ((refuses_satisfy _).mono fun _ h => held_of_begins h w))
  · exact fun _ h => h.mono (List.cons_subset_cons c (List.nil_subset cs))
  · exact fun _ h => h.mono (List.subset_cons_self c cs)

theorem refuses_char_or {e : Expression α} (c : Char) (f : CodePoint → α)
    (he : Refuses w [] p e) : Refuses w [] p (f <$> .char c <|> e) :=
  refuses_or (refuses_map f (refuses_one _)) he

theorem begins_of_char {c : Char} {t : Text} (h : parse (.char c) t ≠ none) : Begins [c] t := by
  cases t with
  | nil => exact absurd (parse_char_nil c) h
  | cons d t =>
    by_cases hd : d = c
    · exact ⟨c, List.mem_singleton_self c, t, congrArg (· :: t) hd⟩
    · exact absurd (parse_char_none hd t) h

theorem begins_of_token {c : Char} {t : Text} (h : parse (token c) t ≠ none) : Begins [c] t :=
  begins_of_char fun hnone => h (parse_left_none hnone _)

/-! ## Heads and labels -/

/-- Where the head of a rule is read it ends with its equals sign, so the display name and the
blanks before the sign are read with more behind the text. -/
theorem refuses_ruleHead : Refuses w [] p (rule .ruleHead) := by
  have hname (n : Nat) : Swaps [] w n (Begins ['"', '\'']) (Begins ['=']) (rule .displayName) :=
    swaps_rule (swaps_left swaps_stringLiteral.upTo
      (swaps_blank_firm.narrow fun _ => firm_of_begins (by decide)))
  have hdisplay (n : Nat) : Swaps [] w n Anywhere (Begins ['=']) (.opt (rule .displayName)) := by
    refine swaps_opt (hname n).anywhere (fun _ _ => trivial) (refuses_of_begins fun c hc s => ?_)
    obtain rfl := List.mem_singleton.mp hc
    exact parse_displayName_none (by decide) (by decide) s
  exact refuses_rule (refuses_map _ (refuses_map _
    (refuses_seq hdisplay (refuses_one _) fun _ => begins_of_char)))

theorem refuses_label : Refuses w [] p (rule .label) := by
  have hname (n : Nat) : Swaps [] w n (· ≠ []) (Begins [':']) (rule .identifier <* blank) :=
    swaps_left swaps_identifier (swaps_blank_firm.narrow fun _ => firm_of_begins (by decide))
  exact refuses_rule (refuses_map _
    (refuses_seq hname (refuses_token ':') fun _ => begins_of_token))

theorem cut_label : Swaps w [] n (Inner w) Anywhere (rule .label) :=
  swaps_rule (swaps_left (swaps_left cut_identifier cut_blank)
    ((cut_token ':').weaken fun _ => clear_of_begins (by decide)))

/-! ## Primaries -/

theorem cut_flag : Swaps w [] n Anywhere (Inner w) flag := swaps_flag.cut.upTo

theorem cut_literal : Swaps w [] n (Clear w) (Clear w) (rule .literal) := by
  have hflag : Swaps w [] n Anywhere (Inner w) (.opt (rule .ignoreCase)) :=
    swaps_opt (swaps_rule cut_flag) (fun _ _ => trivial) (refuses_rule refuses_flag)
  exact (swaps_rule (swaps_map _ (swaps_seq swaps_stringLiteral
    (swaps_left hflag cut_blank)))).weaken fun _ => clear_of_begins (by decide)

theorem refuses_literal : Refuses w [] p (rule .literal) :=
  refuses_rule (refuses_map _ (refuses_seq_of_total refuses_stringLiteral
    (total_left (total_opt _) total_blank)))

theorem cut_charClass : Swaps w [] n (Clear w) (Clear w) (rule .charClass) := by
  have hflag : Swaps w [] n Anywhere (Inner w) (.opt flag) :=
    swaps_opt cut_flag (fun _ _ => trivial) refuses_flag
  exact (swaps_rule (swaps_left (swaps_map _ (swaps_source (swaps_right swaps_brackets hflag)))
    cut_blank)).weaken fun _ => clear_of_begins (by decide)

theorem refuses_charClass : Refuses w [] p (rule .charClass) :=
  refuses_rule (refuses_left_of_total (refuses_map _ (refuses_source
    (refuses_right_of_total refuses_brackets (total_opt _)))) total_blank)

theorem cut_anyChar : Swaps w [] n (Clear w) (Clear w) (rule .anyChar) :=
  (swaps_rule (swaps_map _ (swaps_left cut_dot cut_blank))).weaken fun _ => clear_of_inner

theorem cut_ruleRef : Swaps w [] n (Clear w) (Clear w) (rule .ruleRef) :=
  (swaps_rule (swaps_map _ (swaps_left (swaps_left cut_identifier cut_blank)
    (swaps_notAt refuses_ruleHead)))).weaken fun _ => clear_of_inner

/-! ## Ranges -/

/-- Whether a code point may begin a bound of a range. -/
def opensBound (c : CodePoint) : Bool := c.isDigit || c.isWordStart || c = '{'

theorem parse_rangeBound_none {c : CodePoint} (h : opensBound c = false) (s : Text) :
    parse (rule .rangeBound) (c :: s) = none := by
  simp only [opensBound, Bool.or_eq_false_iff, decide_eq_false_iff_not] at h
  obtain ⟨⟨hdigit, hword⟩, hbrace⟩ := h
  refine (parse_rule _ _).trans (parse_or_of_none (parse_map_none _ (parse_source_none
    (parse_plus_none ?_))) (parse_or_of_none (parse_map_none _ (parse_identifier_none hword s))
    (parse_map_none _ (parse_codeBlock_none fun h => hbrace (Option.some.inj h)))))
  rw [parse_satisfy_cons, hdigit]
  rfl

theorem swaps_rangeBound : Swaps v w n (· ≠ []) (Held w) (rule .rangeBound) := by
  have hheld : ∀ s, s ≠ [] → Held w s := fun s hs h => absurd h hs
  have hcode :
      Swaps v w n (· ≠ []) (Held w) ((fun _ => (none : Option Text)) <$> rule .codeBlock) :=
    swaps_map _ ((swaps_codeBlock n).weaken fun _ => ne_nil_of_begins).upTo
  exact swaps_rule (swaps_or (swaps_map _ swaps_digits)
    (swaps_or (swaps_map _ swaps_identifier) hcode (fun _ => id)
      (refuses_map _ (refuses_identifier.mono hheld)))
    (fun _ => id) (refuses_map _ (refuses_digits.mono hheld)))

theorem refuses_rangeBound : Refuses w [] p (rule .rangeBound) := by
  have hheld : ∀ s, p s → Held [] s := fun s _ => held_nil s
  exact refuses_rule (refuses_or (refuses_map _ (refuses_digits.mono hheld))
    (refuses_or (refuses_map _ (refuses_identifier.mono hheld)) (refuses_map _ refuses_codeBlock)))

theorem cut_rangeBounds : Swaps w [] n Anywhere Anywhere (rule .rangeBounds) := by
  have hbound : Swaps w [] n Anywhere Anywhere bound :=
    swaps_map _ (swaps_opt swaps_rangeBound.cut (fun _ _ => trivial) refuses_rangeBound)
  have hdots : Swaps w [] n Anywhere Anywhere dots :=
    swaps_right (swaps_twice '.' '.').anywhere swaps_blank_cut
  have hrefuses : Refuses w [] Anywhere upperBound :=
    refuses_left_of_total (refuses_right_of_total
      (refuses_right_of_total (refuses_of_swaps fun _ => swaps_twice '.' '.') total_blank)
      (total_map _ (total_opt _))) total_blank
  have hupper : Swaps w [] n Anywhere Anywhere (.opt upperBound) :=
    swaps_opt (swaps_left (swaps_right hdots hbound) swaps_blank_cut) (fun _ _ => trivial) hrefuses
  exact swaps_rule (swaps_map _ (swaps_seq (swaps_left hbound swaps_blank_cut) hupper))

/-! ### With more behind them -/

/-- The places behind a bound, which may be missing: no bound begins there. -/
def BehindBound (t : Text) : Prop := Firm t ∧ ∃ c u, t = c :: u ∧ opensBound c = false

theorem behindBlank?_opensBound {c : CodePoint} (h : opensBound c = true) (s : Text) :
    behindBlank? (c :: s) = none := by
  simp only [opensBound, Bool.or_eq_true, decide_eq_true_eq] at h
  rcases h with (hdigit | hword) | rfl
  · exact behindBlank?_mark (CodePoint.isMark_of_isWord (CodePoint.isWord_of_isDigit hdigit)) s
  · exact behindBlank?_mark (CodePoint.isMark_of_isWord (CodePoint.isWord_of_isWordStart hword)) s
  · exact behindBlank?_cons rfl (by decide) s

theorem swaps_bound : Swaps [] w n Firm BehindBound bound := by
  refine swaps_map _ (swaps_opt ((swaps_rangeBound.narrow ?_).of_parse ?_) (fun _ h => h.1)
    (refuses_of_none ?_))
  · rintro t ⟨-, c, u, rfl, -⟩ ⟨⟩
  · intro s minimum t h hs _ _
    obtain ⟨c, u, rfl⟩ := List.exists_cons_of_ne_nil hs
    refine ⟨c, u, rfl, ?_⟩
    rintro rfl
    rw [List.append_nil, parse_rangeBound_none rfl] at h
    cases h
  · rintro s ⟨-, c, u, rfl, hc⟩
    exact parse_rangeBound_none hc _

/-- Behind a bound blanks are skipped up to the dots or the bar. -/
theorem swaps_blank_bound : Swaps [] w n BehindBound (Begins ['.', '|']) blank := by
  have hfirm : Swaps [] w n (Held w) (Begins ['.', '|']) blank :=
    swaps_blank_firm.narrow fun _ => firm_of_begins (by decide)
  refine hfirm.of_parse fun s _ t h _ ht => ?_
  simp only [List.append_nil] at h
  cases hbehind : behindBlank? s with
  | none =>
    -- No blank is skipped, so the dots or the bar stand here.
    rw [parse_blank_of_none hbehind] at h
    cases h
    refine ⟨firm_of_begins (by decide) ht, ?_⟩
    have hends : (['.', '|'].all fun c => !opensBound (CodePoint.ofChar c)) = true := by decide
    obtain ⟨c, hc, u, rfl⟩ := ht
    exact ⟨_, u, rfl, (Bool.not_eq_true' _).mp (List.all_eq_true.mp hends c hc)⟩
  | some u =>
    refine ⟨fun hnone => ?_, ?_⟩
    · rw [hbehind] at hnone
      cases hnone
    · cases s with
      | nil => cases hbehind
      | cons c s =>
        refine ⟨c, s, rfl, Bool.eq_false_iff.mpr fun hc => ?_⟩
        rw [behindBlank?_opensBound hc] at hbehind
        cases hbehind

/-- Up to a bar the bounds of a range are read with more behind the text. -/
theorem swaps_rangeBounds : Swaps [] w n Firm (Begins ['|']) (rule .rangeBounds) := by
  have hminimum : Swaps [] w n Firm (Begins ['.', '|']) (bound <* blank) :=
    swaps_left swaps_bound swaps_blank_bound
  have hdots : Swaps [] w n (BeginsBoth '.' '.') Firm dots :=
    swaps_right (swaps_twice '.' '.').upTo swaps_blank_firm
  have hbar : ∀ s, Begins ['|'] s → Begins ['.', '|'] s :=
    fun _ h => h.mono (List.subset_cons_self _ _)
  have hupper : Swaps [] w n (Begins ['.', '|']) (Begins ['|']) (.opt upperBound) := by
    refine swaps_opt ((swaps_left (swaps_right hdots swaps_bound) swaps_blank_bound).mono ?_ hbar)
      hbar (refuses_of_begins fun c hc s => ?_)
    · rintro s ⟨u, rfl⟩
      exact ⟨'.', List.mem_cons_self, _, rfl⟩
    · obtain rfl := List.mem_singleton.mp hc
      exact parse_left_none (parse_right_none (parse_right_none
        (parse_right_none (parse_char_none (by decide) s) _) _) _) _
  exact swaps_rule (swaps_map _ (swaps_seq hminimum hupper))

/-- No comma is ahead behind the bar, so none stands behind the bounds, and no delimiter does. -/
theorem parse_delimiter_none {s t : Text} {bounds : Bounds} (hs : Open w s)
    (h : parse (token '|' *> rule .rangeBounds) s = some (bounds, t)) :
    parse (token ',' *> rule .choice) t = none := by
  obtain ⟨c, u, hbar, hbounds⟩ := parse_right_eq_some.mp h
  refine parse_right_none (Decidable.byContradiction fun hcomma => ?_) _
  obtain ⟨d, hd, v, rfl⟩ := begins_of_token hcomma
  obtain rfl := List.mem_singleton.mp hd
  exact hs.2 c u hbar ((passes_rangeBounds hbounds).mpr (.here v))

/-- Behind an element a range that is refused is refused where the text is cut off: with no
delimiter it is told by what stands up to its last bar. -/
theorem refuses_repeatRange : Refuses w [] (Open w) (rule .repeatRange) := by
  refine refuses_rule (refuses_map _ fun s hs hnone => ?_)
  rw [List.append_nil]
  cases hopen : parse (token '|' *> rule .rangeBounds) s with
  | none => exact parse_seq_none hopen _
  | some found =>
    obtain ⟨bounds, t⟩ := found
    refine parse_seq_of_none hopen (parse_left_of_none
      (parse_opt_none (parse_delimiter_none hs hopen)) (Decidable.byContradiction fun hclose => ?_))
    -- The last bar stands in the text, so the whole range is read in front of `w` as well.
    have hbar : Swaps [] w (s.length + 1) (Begins ['|']) (Begins ['|'])
        (token '|' *> rule .rangeBounds) :=
      swaps_right (swaps_left (swaps_char '|').upTo swaps_blank_firm) swaps_rangeBounds
    have hread : parse (token '|' *> rule .rangeBounds) (s ++ []) = some (bounds, t ++ []) := by
      rwa [List.append_nil, List.append_nil]
    obtain ⟨-, hread⟩ := hbar (Nat.lt_succ_self _) hread (begins_of_token hclose)
    obtain ⟨c, hc, u, rfl⟩ := begins_of_token hclose
    obtain rfl := List.mem_singleton.mp hc
    obtain ⟨v, hblank, -⟩ := exists_parse_blank (u ++ w)
    have hrest : parse (.opt (token ',' *> rule .choice) <* token '|')
        (CodePoint.ofChar '|' :: u ++ w) = some (none, v) :=
      parse_left_of (parse_opt_none (parse_right_none (parse_token_none (by decide) _) _))
        (parse_left_of (parse_char '|' _) hblank)
    rw [parse_seq_of hread hrest] at hnone
    cases hnone

/-- The bar that ends a range. -/
theorem cut_bar : Swaps w [] n (fun t => Begins ['|'] t ∧ Open w t) (Clear w) (token '|') := by
  intro s c t hs h ht
  obtain ⟨hbar, hread⟩ := cut_token '|' hs h trivial
  refine ⟨⟨hbar, clear_of_begins (by decide) hbar, fun d u hu => ?_⟩, hread⟩
  simp only [List.append_nil] at hread
  rw [hu] at hread
  cases hread
  obtain ⟨v, x, -, hblank⟩ := parse_left_eq_some.mp hu
  exact (ht (behindBlank?_of_parse_blank hblank)).1

/-! ## Operands -/

theorem refuses_operatorSuffix : Refuses w [] p (rule .operatorSuffix) :=
  refuses_rule (refuses_left_of_total (refuses_char_or '?' _ (refuses_char_or '*' _
    (refuses_map _ (refuses_one _)))) total_blank)

theorem cut_prefixSign : Swaps w [] n (Clear w) (Clear w) (.opt (rule .prefixSign)) := by
  have hsign : Swaps w [] n (Begins ['$', '&', '!']) Anywhere (rule .prefixSign) :=
    swaps_rule (swaps_left (swaps_char_or '$' _ (swaps_char_or '&' _
      (swaps_map _ (swaps_char '!')))) swaps_blank_cut)
  refine swaps_opt (hsign.weaken fun _ => clear_of_begins (by decide)).upTo (fun _ => id) ?_
  exact refuses_rule (refuses_left_of_total (refuses_char_or '$' _ (refuses_char_or '&' _
    (refuses_map _ (refuses_one _)))) total_blank)

theorem cut_semanticPredicate : Swaps w [] n (Begins ['&', '!']) Anywhere
    (rule .semanticPredicate) :=
  swaps_rule (swaps_map _ (swaps_seq
    (swaps_left (swaps_char_or '&' _ (swaps_map _ (swaps_char '!'))) swaps_blank_cut)
    (swaps_left (swaps_codeBlock n).anywhere swaps_blank_cut)))

/-- Where a predicate is read its code stands in the text, and so do the blanks before it. -/
theorem refuses_semanticPredicate : Refuses w [] p (rule .semanticPredicate) := by
  have hmark (n : Nat) : Swaps [] w n (Begins ['&', '!']) (Begins ['{'])
      (((fun _ => false) <$> .char '&' <|> (fun _ => true) <$> .char '!') <* blank) :=
    swaps_left (swaps_char_or '&' _ (swaps_map _ (swaps_char '!'))).upTo
      (swaps_blank_firm.narrow fun _ => firm_of_begins (by decide))
  refine refuses_rule (refuses_map _ (refuses_seq hmark
    (refuses_left_of_total refuses_codeBlock total_blank) fun t ht => ?_))
  by_cases hbrace : t.head? = some (CodePoint.ofChar '{')
  · obtain ⟨u, rfl⟩ := List.head?_eq_some_iff.mp hbrace
    exact ⟨'{', List.mem_singleton_self _, u, rfl⟩
  · exact absurd (parse_left_none (parse_codeBlock_none hbrace) _) ht

/-! ## Where elements end -/

/-- No element begins where a rule does. -/
theorem parse_labeled_of_beginsRule {s : Text} (h : BeginsRule s) :
    parse (rule .labeled) s = none := by
  have hlabel := parse_label_of_beginsRule h
  have hreference := parse_ruleRef_of_beginsRule h
  obtain ⟨c, s, rfl, hc⟩ := exists_cons_of_beginsRule h
  have hne {d : Char} (hd : (CodePoint.ofChar d).isWordStart = false) : c ≠ d :=
    ne_of_isWordStart hc hd
  have hprimary : parse (rule .primary) (c :: s) = none := by
    refine (parse_rule _ _).trans (parse_or_of_none (parse_literal_none (hne rfl) (hne rfl) s) ?_)
    refine parse_or_of_none (parse_charClass_none (hne rfl) s) ?_
    refine parse_or_of_none (parse_anyChar_none (hne rfl) s) ?_
    exact parse_or_of_none hreference (parse_group_none (hne rfl) s)
  exact parse_labeled_none_of (hne rfl) (hne rfl) (hne rfl) (hne rfl) hlabel hprimary

theorem refuses_labeled {cs : List Char}
    (hcs : (cs.all fun c => !opensElement (CodePoint.ofChar c)) = true) :
    Refuses w [] (Stop w cs) (rule .labeled) := by
  refine refuses_of_none ?_
  rintro s ⟨-, hend⟩
  rw [List.append_nil]
  rcases hend with rfl | hrule | ⟨c, hc, u, rfl⟩
  · rfl
  · exact parse_labeled_of_beginsRule hrule
  · exact parse_labeled_none ((Bool.not_eq_true' _).mp (List.all_eq_true.mp hcs c hc)) u

theorem refuses_slash :
    Refuses w [] (Stop w [';', ')', '|']) (token '/' *> rule .actionExpr) := by
  refine refuses_of_none ?_
  rintro s ⟨-, hend⟩
  rw [List.append_nil]
  refine parse_right_none ?_ _
  rcases hend with rfl | hrule | ⟨c, hc, u, rfl⟩
  · rfl
  · obtain ⟨c, u, rfl, hc⟩ := exists_cons_of_beginsRule hrule
    exact parse_token_none (ne_of_isWordStart hc rfl) u
  · have hne : ([';', ')', '|'].all fun c => CodePoint.ofChar c ≠ '/') = true := by decide
    exact parse_token_none (of_decide_eq_true (List.all_eq_true.mp hne c hc)) u

/-- The code of an action stands where a sequence ends. -/
theorem cut_action {cs : List Char} (hcs : '{' ∈ cs) :
    Swaps w [] n (Stop w cs) (Clear w) (rule .action) := by
  have haction : Swaps w [] n (Inner w) (Clear w) (rule .action) :=
    swaps_rule (swaps_left cut_codeBlock cut_blank)
  intro s code t hs h ht
  obtain ⟨hinner, hread⟩ := haction hs h ht
  have hbrace : s.head? = some (CodePoint.ofChar '{') := by
    refine Decidable.byContradiction fun hbrace => ?_
    rw [List.append_nil, parse_action_none hbrace] at hread
    cases hread
  refine ⟨⟨open_of_clear (clear_of_inner hinner) ?_, ?_⟩, hread⟩
  · rw [hbrace]
    exact fun h => absurd (Option.some.inj h) (by decide)
  · obtain ⟨u, rfl⟩ := List.head?_eq_some_iff.mp hbrace
    exact .inr (.inr ⟨'{', hcs, u, rfl⟩)

/-! ## Phrases -/

section Phrases

variable (hchoice : Swaps w [] n (Clear w) (Stop w [';', ')', '|']) (rule .choice))

include hchoice

theorem cut_repeatRange : Swaps w [] (n + 1) (Clear w) (Clear w) (rule .repeatRange) := by
  have hopen : Swaps w [] (n + 1) (Begins ['|']) Anywhere (token '|' *> rule .rangeBounds) :=
    swaps_right (cut_token '|').upTo cut_rangeBounds
  have hdelimiter : Swaps w [] n Anywhere (fun t => Begins ['|'] t ∧ Open w t)
      (.opt (token ',' *> rule .choice)) := by
    refine swaps_opt (swaps_right (cut_token ',').anywhere.upTo (hchoice.narrow ?_))
      (fun _ _ => trivial) (refuses_of_none ?_)
    · rintro t ⟨hbar, hopen⟩
      exact ⟨hopen, .inr (.inr (hbar.mono (by decide)))⟩
    · rintro s ⟨⟨c, hc, u, rfl⟩, -⟩
      obtain rfl := List.mem_singleton.mp hc
      exact parse_right_none (parse_token_none (by decide) _) _
  exact (swaps_rule (swaps_map _ (swaps_seq_of_lt rfl hopen
    (swaps_left hdelimiter cut_bar)))).weaken fun _ => clear_of_begins (by decide)

theorem cut_suffix : Swaps w [] (n + 1) (Clear w) (Open w) (.opt (rule .suffix)) := by
  have hoperator : Swaps w [] (n + 1) (Begins ['?', '*', '+']) Anywhere (rule .operatorSuffix) :=
    swaps_rule (swaps_left (swaps_char_or '?' _ (swaps_char_or '*' _
      (swaps_map _ (swaps_char '+')))) swaps_blank_cut)
  have hsuffix : Swaps w [] (n + 1) (Clear w) (Clear w) (rule .suffix) :=
    swaps_rule (swaps_or (hoperator.weaken fun _ => clear_of_begins (by decide)).upTo
      (cut_repeatRange hchoice) (fun _ => id) refuses_operatorSuffix)
  exact swaps_opt (hsuffix.narrow fun _ h => h.1) (fun _ h => h.1)
    (refuses_rule (refuses_or refuses_operatorSuffix refuses_repeatRange))

theorem cut_group : Swaps w [] (n + 1) (Begins ['(']) Anywhere (rule .group) := by
  have hclose : Swaps w [] (n + 1) (Stop w [';', ')', '|']) Anywhere (token ')') :=
    (cut_token ')').weaken fun _ => stop_of_begins (by decide) (by decide)
  exact swaps_rule (swaps_map _ (swaps_left
    (swaps_map _ (swaps_seq_of_lt rfl (cut_token '(').upTo hchoice)) hclose))

theorem cut_primary : Swaps w [] (n + 1) (Clear w) (Clear w) (rule .primary) := by
  have hreference : Swaps w [] (n + 1) (Clear w) (Clear w) (rule .ruleRef <|> rule .group) := by
    refine swaps_or cut_ruleRef (cut_group hchoice).upTo (fun _ => clear_of_begins (by decide))
      (refuses_of_begins fun c hc s => ?_)
    obtain rfl := List.mem_singleton.mp hc
    exact parse_ruleRef_none (by decide) s
  have hany : Swaps w [] (n + 1) (Clear w) (Clear w)
      (rule .anyChar <|> rule .ruleRef <|> rule .group) :=
    swaps_or cut_anyChar hreference (fun _ => id) (refuses_rule (refuses_map _ (refuses_token '.')))
  exact swaps_rule (swaps_or cut_literal (swaps_or cut_charClass hany (fun _ => id)
    refuses_charClass) (fun _ => id) refuses_literal)

theorem cut_prefixed : Swaps w [] (n + 1) (Clear w) (Open w) (rule .prefixed) := by
  have hsuffixed : Swaps w [] (n + 1) (Clear w) (Open w) (rule .suffixed) :=
    swaps_rule (swaps_map _ (swaps_seq (cut_primary hchoice) (cut_suffix hchoice)))
  have hoperator : Swaps w [] (n + 1) (Clear w) (Open w) (rule .operatorExpr) :=
    swaps_rule (swaps_map _ (swaps_seq cut_prefixSign hsuffixed))
  have hsemantic : Swaps w [] (n + 1) (Clear w) (Open w) (rule .semanticPredicate) :=
    (cut_semanticPredicate.weaken fun _ => clear_of_begins (by decide)).upTo
  exact swaps_rule (swaps_or hsemantic hoperator (fun _ => id) refuses_semanticPredicate)

/-- No bar stands before an element, so the place before it is one behind an element as well. -/
theorem cut_labeled : Swaps w [] (n + 1) (Open w) (Open w) (rule .labeled) := by
  have hpluck : Swaps w [] (n + 1) (Clear w) (Clear w) (.opt (rule .pluck)) :=
    swaps_opt (swaps_rule (swaps_map _
      ((cut_token '@').weaken fun _ => clear_of_begins (by decide)).upTo)) (fun _ => id)
      (refuses_rule (refuses_map _ (refuses_token '@')))
  have hlabel : Swaps w [] (n + 1) (Clear w) (Clear w) (.opt (rule .label)) :=
    swaps_opt (cut_label.weaken fun _ => clear_of_inner).upTo (fun _ => id) refuses_label
  have hlabeled : Swaps w [] (n + 1) (Clear w) (Open w) (rule .labeled) :=
    swaps_rule (swaps_map _ (swaps_seq hpluck (swaps_seq hlabel (cut_prefixed hchoice))))
  intro s x t hs h ht
  obtain ⟨hclear, hread⟩ := hlabeled hs h ht
  refine ⟨open_of_clear hclear fun hbar => ?_, hread⟩
  obtain ⟨u, rfl⟩ := List.head?_eq_some_iff.mp hbar
  rw [List.append_nil, parse_labeled_none (by decide)] at hread
  cases hread

theorem cut_sequence :
    Swaps w [] (n + 1) (Open w) (Stop w [';', ')', '|', '/', '{']) (rule .sequence) := by
  have hlabeled := cut_labeled hchoice
  exact swaps_rule (swaps_map _ (swaps_seq hlabeled (swaps_star rfl hlabeled (fun _ => id)
    (fun _ h => h.1) (refuses_labeled (by decide)))))

theorem cut_actionExpr :
    Swaps w [] (n + 1) (Open w) (Stop w [';', ')', '|', '/']) (rule .actionExpr) := by
  have haction : Swaps w [] (n + 1) (Stop w [';', ')', '|', '/', '{']) (Stop w [';', ')', '|', '/'])
      (.opt (rule .action)) :=
    swaps_opt ((cut_action (by decide)).narrow fun _ h => h.1.1)
      (fun _ h => h.mono (by decide)) refuses_action
  exact swaps_rule (swaps_map _ (swaps_seq (cut_sequence hchoice) haction))

end Phrases

/-- Choices of any depth are read of the text that is cut off. -/
theorem cut_choice (n : Nat) :
    Swaps w [] n (Clear w) (Stop w [';', ')', '|']) (rule .choice) := by
  induction n with
  | zero => intro s x t hs; cases hs
  | succ n ih =>
    have haction := cut_actionExpr ih
    have hslash : Swaps w [] (n + 1) (Begins ['/']) (Stop w [';', ')', '|', '/'])
        (token '/' *> rule .actionExpr) := swaps_right (cut_token '/').upTo haction
    have hchoice : Swaps w [] (n + 1) (Open w) (Stop w [';', ')', '|']) (rule .choice) :=
      swaps_rule (swaps_map _ (swaps_seq haction (swaps_star rfl hslash
        (fun _ => stop_of_begins (by decide) (by decide)) (fun _ h => h.mono (by decide))
        refuses_slash)))
    exact hchoice.weaken fun _ h => h.1

/-! ## Rules -/

/-- The places behind a rule. -/
def EndsRule (t : Text) : Prop := t = [] ∨ BeginsRule t

theorem stop_of_endsRule {t : Text} (h : EndsRule t) (w : Text) (cs : List Char) : Stop w cs t := by
  refine ⟨?_, h.imp_right .inl⟩
  rcases h with rfl | h
  · exact open_nil
  · exact open_of_beginsRule h

/-- A rule is read up to where the text is cut off or the next rule begins. -/
theorem cut_definition : Swaps w [] n BeginsRule EndsRule (rule .rule) := by
  have hname : Swaps w [] n Anywhere Anywhere (rule .identifier <* blank) :=
    swaps_left swaps_identifier.cut swaps_blank_cut
  have hdisplay : Swaps w [] n Anywhere Anywhere (rule .displayName) :=
    swaps_rule (swaps_left swaps_stringLiteral.anywhere swaps_blank_cut)
  have hhead : Swaps w [] n Anywhere Anywhere (.opt (rule .displayName) <* token '=') :=
    swaps_left (swaps_opt hdisplay (fun _ _ => trivial) refuses_displayName)
      (cut_token '=').anywhere
  have hend : Swaps w [] n (Stop w [';', ')', '|']) EndsRule (.opt (token ';')) :=
    swaps_opt ((cut_token ';').weaken fun _ => stop_of_begins (by decide) (by decide)).upTo
      (fun _ h => stop_of_endsRule h w _) (refuses_token ';')
  have hrule : Swaps w [] n Anywhere EndsRule (rule .rule) :=
    swaps_rule (swaps_map _ (swaps_seq hname (swaps_seq hhead
      (swaps_left (cut_choice n).anywhere hend))))
  intro s x t hs h ht
  obtain ⟨-, hread⟩ := hrule hs h ht
  refine ⟨?_, hread⟩
  rw [List.append_nil] at hread
  exact beginsRule_of_rule hread

theorem cut_initializer : Swaps w [] n Anywhere Anywhere (rule .initializer) :=
  swaps_rule (swaps_map _ (swaps_left
    (swaps_left (swaps_codeBlock n).anywhere swaps_blank_cut)
    (swaps_opt (cut_token ';').anywhere (fun _ _ => trivial) (refuses_token ';'))))

theorem refuses_initializer : Refuses w [] EndsRule (rule .initializer) := by
  refine refuses_of_none fun s hs => ?_
  rw [List.append_nil]
  rcases hs with rfl | hrule
  · rfl
  · obtain ⟨c, u, rfl, hc⟩ := exists_cons_of_beginsRule hrule
    refine (parse_rule _ _).trans (parse_map_none _ (parse_left_none (parse_left_none
      (parse_codeBlock_none fun h => ?_) _) _))
    exact ne_of_isWordStart hc rfl (Option.some.inj h)

/-- What is read of a source up to a place is read of the text before it. -/
theorem cut_grammar : Swaps w [] n Anywhere (· = []) (rule .grammar) := by
  have hrules : Swaps w [] n EndsRule (· = []) (.star (rule .rule)) := by
    refine swaps_star rfl cut_definition (fun _ => .inr) (fun _ => .inl) (refuses_of_none ?_)
    rintro s rfl
    rfl
  have hinitializers : Swaps w [] n Anywhere EndsRule (.star (rule .initializer)) :=
    swaps_star rfl cut_initializer (fun _ _ => trivial) (fun _ _ => trivial) refuses_initializer
  exact swaps_rule (swaps_right (swaps_right swaps_blank_cut hinitializers) hrules)

/-- The text before what is left of a source is matched to its end by the same rules. -/
theorem matches_of_cut {s : Text} {written : List Rule}
    (h : parse (rule .grammar) (s ++ w) = some (written, w)) : Matches s written := by
  obtain ⟨-, hread⟩ := cut_grammar (Nat.lt_succ_self _) h rfl
  rw [List.append_nil] at hread
  exact matches_iff.mpr hread

end RuleTypes.Source
