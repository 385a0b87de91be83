import RuleTypes.Proofs.Source.Tokens

/-!
# Phrases of grammar sources

What the nonterminals of phrases read, each from what the nonterminals inside it read. Elements and
suffixes are told by their first code point (`opensElement`, `opensSuffix`), so it is plain where a
sequence, an operand and an alternative end.
-/

namespace RuleTypes.Source

open Expression

variable {s t u rest : Text} {c : CodePoint}

/-! ## First code points -/

/-- Whether a code point may begin a suffix. -/
def opensSuffix (c : CodePoint) : Bool := c = '?' || c = '*' || c = '+' || c = '|'

/-- Whether a code point may begin a primary. -/
def opensPrimary (c : CodePoint) : Bool :=
  c = '"' || c = '\'' || c = '[' || c = '.' || c.isWordStart || c = '('

/-- Whether a code point may begin an element. -/
def opensElement (c : CodePoint) : Bool :=
  c = '@' || c = '&' || c = '!' || c = '$' || opensPrimary c

theorem parse_suffix_none (h : opensSuffix c = false) (s : Text) :
    parse (rule .suffix) (c :: s) = none := by
  simp only [opensSuffix, Bool.or_eq_false_iff, decide_eq_false_iff_not] at h
  obtain ⟨⟨⟨hoptional, hstar⟩, hplus⟩, hbar⟩ := h
  refine (parse_rule _ _).trans (parse_or_of_none ?_ ?_)
  · refine (parse_rule _ _).trans (parse_left_none (parse_or_of_none ?_ (parse_or_of_none ?_ ?_)) _)
    · exact parse_map_none _ (parse_char_none hoptional s)
    · exact parse_map_none _ (parse_char_none hstar s)
    · exact parse_map_none _ (parse_char_none hplus s)
  · exact (parse_rule _ _).trans
      (parse_map_none _ (parse_seq_none (parse_right_none (parse_token_none hbar s) _) _))

theorem parse_literal_none (hdouble : c ≠ '"') (hsingle : c ≠ '\'') (s : Text) :
    parse (rule .literal) (c :: s) = none :=
  (parse_rule _ _).trans
    (parse_map_none _ (parse_seq_none (parse_stringLiteral_none hdouble hsingle s) _))

theorem parse_anyChar_none (h : c ≠ '.') (s : Text) : parse (rule .anyChar) (c :: s) = none :=
  (parse_rule _ _).trans (parse_map_none _ (parse_token_none h s))

theorem parse_ruleRef_none (h : c.isWordStart = false) (s : Text) :
    parse (rule .ruleRef) (c :: s) = none :=
  (parse_rule _ _).trans (parse_map_none _
    (parse_left_none (parse_left_none (parse_identifier_none h s) _) _))

theorem parse_group_none (h : c ≠ '(') (s : Text) : parse (rule .group) (c :: s) = none :=
  (parse_rule _ _).trans (parse_map_none _
    (parse_left_none (parse_right_none (parse_token_none h s) _) _))

theorem parse_primary_none (h : opensPrimary c = false) (s : Text) :
    parse (rule .primary) (c :: s) = none := by
  simp only [opensPrimary, Bool.or_eq_false_iff, decide_eq_false_iff_not] at h
  obtain ⟨⟨⟨⟨⟨hdouble, hsingle⟩, hbracket⟩, hdot⟩, hword⟩, hparen⟩ := h
  refine (parse_rule _ _).trans (parse_or_of_none (parse_literal_none hdouble hsingle s) ?_)
  refine parse_or_of_none (parse_charClass_none hbracket s) ?_
  refine parse_or_of_none (parse_anyChar_none hdot s) ?_
  exact parse_or_of_none (parse_ruleRef_none hword s) (parse_group_none hparen s)

theorem parse_semanticPredicate_none (hand : c ≠ '&') (hnot : c ≠ '!') (s : Text) :
    parse (rule .semanticPredicate) (c :: s) = none := by
  refine (parse_rule _ _).trans
    (parse_map_none _ (parse_seq_none (parse_left_none (parse_or_of_none ?_ ?_) _) _))
  · exact parse_map_none _ (parse_char_none hand s)
  · exact parse_map_none _ (parse_char_none hnot s)

theorem parse_prefixSign_none (htext : c ≠ '$') (hand : c ≠ '&') (hnot : c ≠ '!') (s : Text) :
    parse (rule .prefixSign) (c :: s) = none := by
  refine (parse_rule _ _).trans (parse_left_none (parse_or_of_none ?_ (parse_or_of_none ?_ ?_)) _)
  · exact parse_map_none _ (parse_char_none htext s)
  · exact parse_map_none _ (parse_char_none hand s)
  · exact parse_map_none _ (parse_char_none hnot s)

theorem parse_pluck_none (h : c ≠ '@') (s : Text) : parse (rule .pluck) (c :: s) = none :=
  (parse_rule _ _).trans (parse_map_none _ (parse_token_none h s))

theorem parse_label_none (h : c.isWordStart = false) (s : Text) :
    parse (rule .label) (c :: s) = none :=
  (parse_rule _ _).trans (parse_left_none (parse_left_none (parse_identifier_none h s) _) _)

/-- Where neither a mark, nor a label, nor a primary begins, no element does. -/
theorem parse_labeled_none_of (hpluck : c ≠ '@') (hand : c ≠ '&') (hnot : c ≠ '!') (htext : c ≠ '$')
    (hlabel : parse (rule .label) (c :: s) = none)
    (hprimary : parse (rule .primary) (c :: s) = none) : parse (rule .labeled) (c :: s) = none := by
  have hsuffixed : parse (rule .suffixed) (c :: s) = none :=
    (parse_rule _ _).trans (parse_map_none _ (parse_seq_none hprimary _))
  have hoperator : parse (rule .operatorExpr) (c :: s) = none :=
    (parse_rule _ _).trans (parse_map_none _ (parse_seq_of_none
      (parse_opt_none (parse_prefixSign_none htext hand hnot s)) hsuffixed))
  have hprefixed : parse (rule .prefixed) (c :: s) = none :=
    (parse_rule _ _).trans
      (parse_or_of_none (parse_semanticPredicate_none hand hnot s) hoperator)
  exact (parse_rule _ _).trans (parse_map_none _ (parse_seq_of_none
    (parse_opt_none (parse_pluck_none hpluck s))
    (parse_seq_of_none (parse_opt_none hlabel) hprefixed)))

theorem parse_labeled_none (h : opensElement c = false) (s : Text) :
    parse (rule .labeled) (c :: s) = none := by
  simp only [opensElement, Bool.or_eq_false_iff, decide_eq_false_iff_not] at h
  obtain ⟨⟨⟨⟨hpluck, hand⟩, hnot⟩, htext⟩, hprimary⟩ := h
  have hword : c.isWordStart = false := by
    simp only [opensPrimary, Bool.or_eq_false_iff] at hprimary
    exact hprimary.1.2
  exact parse_labeled_none_of hpluck hand hnot htext (parse_label_none hword s)
    (parse_primary_none hprimary s)

theorem parse_action_none (h : s.head? ≠ some (CodePoint.ofChar '{')) :
    parse (rule .action) s = none :=
  (parse_rule _ _).trans (parse_left_none (parse_codeBlock_none h) _)

/-! ## Primaries -/

theorem parse_ignoreCase_none (h : endsWord s = true) : parse (rule .ignoreCase) s = none :=
  (parse_rule _ _).trans (parse_flag_endsWord h)

/-- A literal is read up to its second quote, or to the flag behind it. -/
theorem parse_literal {body : Text} {ignoreCase : Option Unit}
    (hbody : Text.behindMark? '"' false (body ++ CodePoint.ofChar '"' :: t) = some t)
    (hflag : parse (.opt (rule .ignoreCase)) t = some (ignoreCase, rest))
    (hsolid : rest.isSolid = true) :
    parse (rule .primary) (CodePoint.ofChar '"' :: (body ++ CodePoint.ofChar '"' :: t)) =
      some (.literal body ignoreCase.isSome, rest) := by
  have hstring := (parse_rule .stringLiteral _).trans
    (parse_or_of (parse_quoted (by decide) hbody) (quoted '\''))
  exact (parse_rule _ _).trans (parse_or_of ((parse_rule _ _).trans (parse_map_of _
    (parse_seq_of hstring (parse_left_of hflag (parse_blank hsolid))))) _)

theorem parse_primary_charClass {pattern : Text} (h : pattern.isClass = true)
    (hrest : endsWord rest = true) (hsolid : rest.isSolid = true) :
    parse (rule .primary) (pattern ++ rest) = some (.charClass pattern, rest) := by
  have hliteral : parse (rule .literal) (pattern ++ rest) = none := by
    obtain ⟨pattern, rfl, -⟩ := Text.exists_cons_of_isClass h
    exact parse_literal_none (by decide) (by decide) _
  exact (parse_rule _ _).trans
    (parse_or_of_none hliteral (parse_or_of (parse_charClass h hrest hsolid) _))

theorem parse_primary_anyChar (hsolid : rest.isSolid = true) :
    parse (rule .primary) (CodePoint.ofChar '.' :: rest) = some (.anyChar, rest) := by
  refine (parse_rule _ _).trans (parse_or_of_none (parse_literal_none (by decide) (by decide) _) ?_)
  refine parse_or_of_none (parse_charClass_none (by decide) _) (parse_or_of ?_ _)
  exact (parse_rule _ _).trans (parse_map_of _ (parse_token '.' hsolid))

theorem parse_displayName_none (hdouble : c ≠ '"') (hsingle : c ≠ '\'') (s : Text) :
    parse (rule .displayName) (c :: s) = none :=
  (parse_rule _ _).trans (parse_left_none (parse_stringLiteral_none hdouble hsingle s) _)

theorem parse_ruleHead_none (hdouble : c ≠ '"') (hsingle : c ≠ '\'') (hequals : c ≠ '=')
    (s : Text) : parse (rule .ruleHead) (c :: s) = none :=
  (parse_rule _ _).trans (parse_map_none _ (parse_right_of_none
    (parse_opt_none (parse_displayName_none hdouble hsingle s)) (parse_char_none hequals s)))

/-- A name is a reference where neither the name nor the head of a rule goes on. -/
theorem parse_reference {name : Text} (hname : name.isIdentifier = true)
    (hword : c.isWord = false) (hdouble : c ≠ '"') (hsingle : c ≠ '\'') (hequals : c ≠ '=')
    (hsolid : Text.isSolid (c :: s) = true) :
    parse (rule .primary) (name ++ c :: s) = some (.reference name, c :: s) := by
  have hread : parse (rule .identifier) (name ++ c :: s) = some (name, c :: s) :=
    parse_identifier hname (by simp [endsWord, hword])
  have hreference : parse (rule .ruleRef) (name ++ c :: s) = some (.reference name, c :: s) :=
    (parse_rule _ _).trans (parse_map_of _ (parse_left_of
      (parse_left_of hread (parse_blank hsolid))
      (parse_notAt_of (parse_ruleHead_none hdouble hsingle hequals s))))
  obtain ⟨d, name, rfl, hd, -⟩ := Text.exists_cons_of_isIdentifier hname
  have hne : ∀ e : Char, (CodePoint.ofChar e).isWordStart = false → d ≠ e := by
    rintro e he rfl
    rw [hd] at he
    cases he
  refine (parse_rule _ _).trans (parse_or_of_none (parse_literal_none (hne _ rfl) (hne _ rfl) _) ?_)
  refine parse_or_of_none (parse_charClass_none (hne _ rfl) _) ?_
  exact parse_or_of_none (parse_anyChar_none (hne _ rfl) _) (parse_or_of hreference _)

theorem parse_group {p : Phrase .choice} (hopen : s.isSolid = true)
    (h : parse (rule .choice) s = some (p, CodePoint.ofChar ')' :: rest))
    (hclose : rest.isSolid = true) :
    parse (rule .primary) (CodePoint.ofChar '(' :: s) = some (.group p, rest) := by
  have hgroup : parse (rule .group) (CodePoint.ofChar '(' :: s) = some (.group p, rest) :=
    (parse_rule _ _).trans (parse_map_of _
      (parse_left_of (parse_right_of (parse_token '(' hopen) h) (parse_token ')' hclose)))
  refine (parse_rule _ _).trans (parse_or_of_none (parse_literal_none (by decide) (by decide) _) ?_)
  refine parse_or_of_none (parse_charClass_none (by decide) _) ?_
  exact parse_or_of_none (parse_anyChar_none (by decide) _)
    (parse_or_of_none (parse_ruleRef_none (by decide) _) hgroup)

/-! ## Operands -/

theorem parse_optional (hsolid : rest.isSolid = true) :
    parse (rule .suffix) (CodePoint.ofChar '?' :: rest) = some (.optional, rest) :=
  (parse_rule _ _).trans (parse_or_of ((parse_rule _ _).trans (parse_left_of
    (parse_or_of (parse_map_of _ (parse_char '?' rest)) _) (parse_blank hsolid))) _)

theorem parse_star_suffix (hsolid : rest.isSolid = true) :
    parse (rule .suffix) (CodePoint.ofChar '*' :: rest) = some (.star, rest) :=
  (parse_rule _ _).trans (parse_or_of ((parse_rule _ _).trans (parse_left_of
    (parse_or_of_none (parse_map_none _ (parse_char_none (by decide) _))
      (parse_or_of (parse_map_of _ (parse_char '*' rest)) _)) (parse_blank hsolid))) _)

theorem parse_plus_suffix (hsolid : rest.isSolid = true) :
    parse (rule .suffix) (CodePoint.ofChar '+' :: rest) = some (.plus, rest) :=
  (parse_rule _ _).trans (parse_or_of ((parse_rule _ _).trans (parse_left_of
    (parse_or_of_none (parse_map_none _ (parse_char_none (by decide) _))
      (parse_or_of_none (parse_map_none _ (parse_char_none (by decide) _))
        (parse_map_of _ (parse_char '+' rest)))) (parse_blank hsolid))) _)

/-- A range whose one bound is a number is read with all the digits of the number. -/
theorem parse_range {digits : Text} (hdigits : digits.all CodePoint.isDigit = true)
    (hne : digits ≠ []) (hsolid : rest.isSolid = true) :
    parse (rule .suffix) (CodePoint.ofChar '|' :: (digits ++ CodePoint.ofChar '|' :: rest)) =
      some (.range ⟨some digits, none⟩, rest) := by
  have hbound : parse (rule .rangeBound) (digits ++ CodePoint.ofChar '|' :: rest) =
      some (some digits, CodePoint.ofChar '|' :: rest) :=
    (parse_rule _ _).trans (parse_or_of (parse_map_of some (parse_digits hdigits hne rfl)) _)
  have hupper : parse (.opt (twice '.' '.' *> blank *> bound <* blank))
      (CodePoint.ofChar '|' :: rest) = some (none, CodePoint.ofChar '|' :: rest) :=
    parse_opt_none (parse_left_none (parse_right_none (parse_right_none
      (parse_right_none (parse_char_none (by decide) rest) _) _) _) _)
  have hbounds : parse (rule .rangeBounds) (digits ++ CodePoint.ofChar '|' :: rest) =
      some (⟨some digits, none⟩, CodePoint.ofChar '|' :: rest) :=
    (parse_rule _ _).trans (parse_map_of _ (parse_seq_of
      (parse_left_of (parse_map_of _ (parse_opt_of hbound)) (parse_blank rfl)) hupper))
  have hdelimiter : parse (.opt (token ',' *> rule .choice)) (CodePoint.ofChar '|' :: rest) =
      some (none, CodePoint.ofChar '|' :: rest) :=
    parse_opt_none (parse_right_none (parse_token_none (by decide) rest) _)
  have hrange : parse (rule .repeatRange)
      (CodePoint.ofChar '|' :: (digits ++ CodePoint.ofChar '|' :: rest)) =
        some (.range ⟨some digits, none⟩, rest) :=
    (parse_rule _ _).trans (parse_map_of _ (parse_seq_of
      (parse_right_of (parse_token '|' (isSolid_digits hdigits hne _)) hbounds)
      (parse_left_of hdelimiter (parse_token '|' hsolid))))
  have hoperator : parse (rule .operatorSuffix)
      (CodePoint.ofChar '|' :: (digits ++ CodePoint.ofChar '|' :: rest)) = none :=
    (parse_rule _ _).trans (parse_left_none (parse_or_of_none
      (parse_map_none _ (parse_char_none (by decide) _)) (parse_or_of_none
        (parse_map_none _ (parse_char_none (by decide) _))
        (parse_map_none _ (parse_char_none (by decide) _)))) _)
  exact (parse_rule _ _).trans (parse_or_of_none hoperator hrange)

theorem parse_suffixed {p : Phrase .primary} {x : Phrase .suffix}
    (hp : parse (rule .primary) s = some (p, t)) (hx : parse (rule .suffix) t = some (x, u)) :
    parse (rule .suffixed) s = some ((p, x), u) :=
  (parse_rule _ _).trans (parse_map_of _ (parse_seq_of hp (parse_opt_of hx)))

theorem parse_suffixed_bare {p : Phrase .primary}
    (hp : parse (rule .primary) s = some (p, c :: t)) (hc : opensSuffix c = false) :
    parse (rule .suffixed) s = some ((p, .bare), c :: t) :=
  (parse_rule _ _).trans
    (parse_map_of _ (parse_seq_of hp (parse_opt_none (parse_suffix_none hc t))))

/-- An operand without a sign begins with its primary. -/
theorem parse_operand {p : Phrase .primary} {x : Phrase .suffix} (hc : opensPrimary c = true)
    (h : parse (rule .suffixed) (c :: s) = some ((p, x), t)) :
    parse (rule .prefixed) (c :: s) = some (.operand none p x, t) := by
  have hne : ∀ d : Char, opensPrimary (CodePoint.ofChar d) = false → c ≠ d := by
    rintro d hd rfl
    rw [hc] at hd
    cases hd
  have hsign := parse_prefixSign_none (hne '$' rfl) (hne '&' rfl) (hne '!' rfl) s
  have hoperator : parse (rule .operatorExpr) (c :: s) = some (.operand none p x, t) :=
    (parse_rule _ _).trans (parse_map_of _ (parse_seq_of (parse_opt_none hsign) h))
  exact (parse_rule _ _).trans (parse_or_of_none
    (parse_semanticPredicate_none (hne '&' rfl) (hne '!' rfl) s) hoperator)

theorem parse_signed {sign : Sign} {p : Phrase .primary} {x : Phrase .suffix}
    (hsemantic : parse (rule .semanticPredicate) s = none)
    (hsign : parse (rule .prefixSign) s = some (sign, t))
    (h : parse (rule .suffixed) t = some ((p, x), u)) :
    parse (rule .prefixed) s = some (.operand (some sign) p x, u) := by
  have hoperator : parse (rule .operatorExpr) s = some (.operand (some sign) p x, u) :=
    (parse_rule _ _).trans (parse_map_of _ (parse_seq_of (parse_opt_of hsign) h))
  exact (parse_rule _ _).trans (parse_or_of_none hsemantic hoperator)

/-- The mark of a predicate. -/
def predicateMark (negated : Bool) : CodePoint := if negated then '!' else '&'

theorem parse_predicateMark (negated : Bool) (s : Text) :
    parse ((fun _ => false) <$> .char '&' <|> (fun _ => true) <$> .char '!')
      (predicateMark negated :: s) = some (negated, s) := by
  cases negated with
  | false => exact parse_or_of (parse_map_of _ (parse_char '&' s)) _
  | true =>
    exact parse_or_of_none (parse_map_none _ (parse_char_none (by decide) s))
      (parse_map_of _ (parse_char '!' s))

theorem parse_semantic (negated : Bool) {code : Text} (hcode : code.isBlock = true)
    (hsolid : rest.isSolid = true) :
    parse (rule .prefixed) (predicateMark negated :: (code ++ rest)) =
      some (.semantic negated code, rest) := by
  have hopen : (code ++ rest).isSolid = true := by
    obtain ⟨code, rfl, -⟩ := Text.exists_cons_of_isBlock hcode
    rfl
  exact (parse_rule _ _).trans (parse_or_of ((parse_rule _ _).trans (parse_map_of _ (parse_seq_of
    (parse_left_of (parse_predicateMark negated _) (parse_blank hopen))
    (parse_left_of (parse_codeBlock_append hcode rest) (parse_blank hsolid))))) _)

/-- A mark with no code behind it is the sign of an operand. -/
theorem parse_lookahead (negated : Bool) {p : Phrase .primary} {x : Phrase .suffix}
    (hc : opensPrimary c = true) (hsolid : Text.isSolid (c :: s) = true)
    (h : parse (rule .suffixed) (c :: s) = some ((p, x), t)) :
    parse (rule .prefixed) (predicateMark negated :: c :: s) =
      some (.operand (some (if negated then .negative else .positive)) p x, t) := by
  have hsemantic : parse (rule .semanticPredicate) (predicateMark negated :: c :: s) = none := by
    refine (parse_rule _ _).trans (parse_map_none _ (parse_seq_of_none
      (parse_left_of (parse_predicateMark negated _) (parse_blank hsolid))
      (parse_left_none (parse_codeBlock_none ?_) _)))
    intro hbrace
    rw [Option.some.inj hbrace] at hc
    cases hc
  refine parse_signed hsemantic ((parse_rule _ _).trans (parse_left_of ?_ (parse_blank hsolid))) h
  cases negated with
  | false =>
    exact parse_or_of_none (parse_map_none _ (parse_char_none (by decide) _))
      (parse_or_of (parse_map_of _ (parse_char '&' _)) _)
  | true =>
    exact parse_or_of_none (parse_map_none _ (parse_char_none (by decide) _))
      (parse_or_of_none (parse_map_none _ (parse_char_none (by decide) _))
        (parse_map_of _ (parse_char '!' _)))

theorem parse_text {p : Phrase .primary} {x : Phrase .suffix} (hsolid : s.isSolid = true)
    (h : parse (rule .suffixed) s = some ((p, x), t)) :
    parse (rule .prefixed) (CodePoint.ofChar '$' :: s) = some (.operand (some .text) p x, t) :=
  parse_signed (parse_semanticPredicate_none (by decide) (by decide) s)
    ((parse_rule _ _).trans (parse_left_of (parse_or_of (parse_map_of _ (parse_char '$' s)) _)
      (parse_blank hsolid))) h

/-! ## Elements and what they are part of -/

theorem parse_labeled {pluck : Option Unit} {label : Option Text} {o : Phrase .operand}
    (hpluck : parse (.opt (rule .pluck)) s = some (pluck, t))
    (hlabel : parse (.opt (rule .label)) t = some (label, u))
    (ho : parse (rule .prefixed) u = some (o, rest)) :
    parse (rule .labeled) s = some (.element pluck.isSome label o, rest) :=
  (parse_rule _ _).trans (parse_map_of _ (parse_seq_of hpluck (parse_seq_of hlabel ho)))

theorem parse_pluck (hsolid : rest.isSolid = true) :
    parse (rule .pluck) (CodePoint.ofChar '@' :: rest) = some ((), rest) :=
  (parse_rule _ _).trans (parse_map_of _ (parse_token '@' hsolid))

theorem parse_label {name : Text} (hname : name.isIdentifier = true)
    (hsolid : rest.isSolid = true) :
    parse (rule .label) (name ++ CodePoint.ofChar ':' :: rest) = some (name, rest) :=
  (parse_rule _ _).trans (parse_left_of (parse_left_of (parse_identifier hname rfl)
    (parse_blank rfl)) (parse_token ':' hsolid))

theorem parse_sequence {x : Phrase .element} {xs : List (Phrase .element)}
    (hx : parse (rule .labeled) s = some (x, t))
    (hxs : parse (.star (rule .labeled)) t = some (xs, u)) :
    parse (rule .sequence) s = some (.ofElements x xs, u) :=
  (parse_rule _ _).trans (parse_map_of _ (parse_seq_of hx hxs))

theorem parse_action {code : Text} (hcode : code.isBlock = true) (hsolid : rest.isSolid = true) :
    parse (rule .action) (code ++ rest) = some (code, rest) :=
  (parse_rule _ _).trans (parse_left_of (parse_codeBlock_append hcode rest) (parse_blank hsolid))

theorem parse_actionExpr {p : Phrase .sequence} {action : Option Text}
    (hp : parse (rule .sequence) s = some (p, t))
    (ha : parse (.opt (rule .action)) t = some (action, u)) :
    parse (rule .actionExpr) s = some (.alternative p action, u) :=
  (parse_rule _ _).trans (parse_map_of _ (parse_seq_of hp ha))

theorem parse_choice {a : Phrase .alternative} {others : List (Phrase .alternative)}
    (ha : parse (rule .actionExpr) s = some (a, t))
    (hothers : parse (.star (token '/' *> rule .actionExpr)) t = some (others, u)) :
    parse (rule .choice) s = some (.ofAlternatives a others, u) :=
  (parse_rule _ _).trans (parse_map_of _ (parse_seq_of ha hothers))

/-! ## Rules -/

/-- A rule is read with the semicolon behind it. -/
theorem parse_definition {name : Text} {displayName : Option Text} {p : Phrase .choice}
    (hname : parse (rule .identifier) s = some (name, t)) (hblank : t.isSolid = true)
    (hdisplay : parse (.opt (rule .displayName)) t = some (displayName, CodePoint.ofChar '=' :: u))
    (hequals : u.isSolid = true)
    (hp : parse (rule .choice) u = some (p, CodePoint.ofChar ';' :: rest))
    (hsolid : rest.isSolid = true) :
    parse (rule .rule) s = some (⟨name, displayName, p⟩, rest) :=
  (parse_rule _ _).trans (parse_map_of _ (parse_seq_of (parse_left_of hname (parse_blank hblank))
    (parse_seq_of (parse_left_of hdisplay (parse_token '=' hequals))
      (parse_left_of hp (parse_opt_of (parse_token ';' hsolid))))))

theorem parse_displayName {body : Text} (hbody : Text.behindMark? '"' false
      (body ++ CodePoint.ofChar '"' :: rest) = some rest) (hsolid : rest.isSolid = true) :
    parse (rule .displayName) (CodePoint.ofChar '"' :: (body ++ CodePoint.ofChar '"' :: rest)) =
      some (body, rest) :=
  (parse_rule _ _).trans (parse_left_of ((parse_rule _ _).trans
    (parse_or_of (parse_quoted (by decide) hbody) _)) (parse_blank hsolid))

/-- A text of rules without an initializer is read rule by rule. -/
theorem parse_grammar {rules : List Rule} (hsolid : s.isSolid = true)
    (hbrace : s.head? ≠ some (CodePoint.ofChar '{'))
    (h : parse (.star (rule .rule)) s = some (rules, t)) :
    parse (rule .grammar) s = some (rules, t) := by
  have hinitializer : parse (rule .initializer) s = none :=
    (parse_rule _ _).trans (parse_map_none _
      (parse_left_none (parse_left_none (parse_codeBlock_none hbrace) _) _))
  exact (parse_rule _ _).trans (parse_right_of
    (parse_right_of (parse_blank hsolid) (parse_star_none hinitializer)) h)

end RuleTypes.Source
