import RuleTypes.Proofs.Source.Lowering
import RuleTypes.Proofs.Source.Phrases
import RuleTypes.Proofs.Text.Escape

/-!
# Texts of phrases

When a text is that of an expression: it is read to its end, whatever follows, as a phrase that
lowers to the expression. Parts stand in parentheses, so where a part ends does not depend on what
it is made of.

* `Writes`: a text is read by a nonterminal, before what ends it, as a value with a given meaning.
* `writesElement_literal`, `writesElement_capture` and so on: the texts of elements.
* `writesAlternative_sequence`, `writesAlternative_action`: groups one behind the other, and code
  behind a group.
* `writesChoice_of_alternatives`: alternatives with slashes between them.
-/

namespace RuleTypes

/-! ## Texts -/

namespace Text

/-- A text in parentheses. -/
def grouped (t : Text) : Text := CodePoint.ofChar '(' :: (t ++ [CodePoint.ofChar ')'])

/-- A text as a string literal. -/
def inQuotes (t : Text) : Text := CodePoint.ofChar '"' :: (t.shielded ++ [CodePoint.ofChar '"'])

theorem grouped_append (t s : Text) :
    t.grouped ++ s = CodePoint.ofChar '(' :: (t ++ CodePoint.ofChar ')' :: s) := by
  simp [grouped]

theorem inQuotes_append (t s : Text) :
    t.inQuotes ++ s = CodePoint.ofChar '"' :: (t.shielded ++ CodePoint.ofChar '"' :: s) := by
  simp [inQuotes]

theorem join_cons (separator t : Text) (ts : List Text) :
    join separator (t :: ts) = t ++ ts.flatMap (separator ++ ·) := by
  induction ts generalizing t with
  | nil => simp
  | cons u ts ih => rw [join_cons_cons, ih, List.flatMap_cons, List.append_assoc, List.append_assoc]

end Text

namespace Source

open Expression

/-! ## What a text writes -/

/-- Whether a code point ends a choice: a group or a rule is closed. -/
def endsChoice (c : CodePoint) : Bool := c = ')' || c = ';'

/-- Whether a code point ends an alternative: another one or the end of the choice follows. -/
def endsAlternative (c : CodePoint) : Bool := endsChoice c || c = '/'

/-- Whether a text begins as an element does. -/
def beginsElement (t : Text) : Bool := t.head?.any opensElement

/-- The text `t` begins as an element does, and `r` reads all of it before what ends it, as a value
of which `means` holds. -/
def Writes (r : Nonterminal) (ends : CodePoint → Bool) (means : r.Value → Prop) (t : Text) : Prop :=
  beginsElement t = true ∧ ∀ (c : CodePoint) (s : Text), ends c = true →
    Text.isSolid (c :: s) = true →
      ∃ value, parse (rule r) (t ++ c :: s) = some (value, c :: s) ∧ means value

/-- The text is one of an element that lowers to `e`. -/
def WritesElement (e : Expr) : Text → Prop :=
  Writes .labeled endsAlternative fun x : Phrase .element => x.lower = .ok e

/-- The text is one of an alternative that lowers to `e`. -/
def WritesAlternative (e : Expr) : Text → Prop :=
  Writes .actionExpr endsAlternative fun a : Phrase .alternative => a.lower = .ok e

/-- The text is one of a choice that stands for `e`. -/
def WritesChoice (e : Expr) : Text → Prop :=
  Writes .choice endsChoice fun p : Phrase .choice =>
    ∃ es, p.lower = .ok es ∧ Expr.ofAlternatives es = e

variable {s t rest : Text} {c : CodePoint} {e : Expr}

theorem toNat_of_isWordStart (h : c.isWordStart = true) : 65 ≤ c.toNat ∧ c.toNat ≤ 122 := by
  simp only [CodePoint.isWordStart, CodePoint.isLetter, CodePoint.isUpper, CodePoint.isLower,
    CodePoint.inRange, Bool.or_eq_true, Bool.and_eq_true, decide_eq_true_eq] at h
  rcases h with (⟨hlo, hhi⟩ | ⟨hlo, hhi⟩) | rfl
  · exact ⟨hlo, Nat.le_trans hhi (by decide)⟩
  · exact ⟨Nat.le_trans (by decide) hlo, hhi⟩
  · decide

/-- What begins an element is neither white space nor part of a comment. -/
theorem opensElement_spec (h : opensElement c = true) :
    c.isSpace = false ∧ c ≠ '/' ∧ c ≠ '*' := by
  by_cases hword : c.isWordStart = true
  · obtain ⟨hlo, hhi⟩ := toNat_of_isWordStart hword
    refine ⟨?_, ?_, ?_⟩
    · simp only [CodePoint.isSpace, Bool.or_eq_false_iff, Bool.and_eq_false_iff,
        decide_eq_false_iff_not]
      omega
    · rintro rfl
      exact absurd hlo (by decide)
    · rintro rfl
      exact absurd hlo (by decide)
  · simp only [opensElement, opensPrimary, hword, Bool.or_eq_true, decide_eq_true_eq] at h
    rcases h with (((rfl | rfl) | rfl) | rfl) | ((((rfl | rfl) | rfl) | rfl) | h) | rfl
    all_goals first | decide | exact absurd h Bool.false_ne_true

theorem beginsElement_append (h : beginsElement t = true) (s : Text) :
    beginsElement (t ++ s) = true := by
  cases t with
  | nil => cases h
  | cons c t => exact h

theorem isSolid_of_beginsElement (h : beginsElement t = true) : t.isSolid = true := by
  cases t with
  | nil => rfl
  | cons c t =>
    obtain ⟨hspace, hslash, -⟩ := opensElement_spec h
    exact Text.isSolid_cons hspace hslash t

/-- A slash before an element begins no comment. -/
theorem isSolid_slash (h : beginsElement t = true) :
    Text.isSolid (CodePoint.ofChar '/' :: t) = true := by
  cases t with
  | nil => rfl
  | cons c t =>
    obtain ⟨-, hslash, hstar⟩ := opensElement_spec h
    simp [Text.isSolid, hslash, hstar]
    decide

/-! ## Groups -/

/-- A choice in parentheses is read as a group with its meaning. -/
theorem exists_group (h : WritesChoice e t) (hrest : rest.isSolid = true) :
    ∃ p : Phrase .primary,
      parse (rule .primary) (t.grouped ++ rest) = some (p, rest) ∧ p.lower = .ok e := by
  obtain ⟨p, hp, es, hes, he⟩ := h.2 ')' rest rfl (Text.isSolid_cons rfl (by decide) rest)
  have hopen := isSolid_of_beginsElement (beginsElement_append h.1 (CodePoint.ofChar ')' :: rest))
  refine ⟨.group p, ?_, Phrase.lower_group.mpr ⟨es, hes, he⟩⟩
  rw [Text.grouped_append]
  exact parse_group hopen hp hrest

/-- An operand that begins with neither an `@` nor a word is an element. -/
theorem exists_element {o : Phrase .operand} (hpluck : c ≠ '@') (hlabel : c.isWordStart = false)
    (h : parse (rule .prefixed) (c :: s) = some (o, t)) (hlower : o.lower = .ok e) :
    ∃ x : Phrase .element,
      parse (rule .labeled) (c :: s) = some (x, t) ∧ x.lower = .ok e :=
  ⟨.element false none o, parse_labeled (parse_opt_none (parse_pluck_none hpluck s))
    (parse_opt_none (parse_label_none hlabel s)) h, Phrase.lower_element.mpr ⟨e, hlower, rfl⟩⟩

/-- A choice in parentheses is read as an operand wherever no suffix follows. -/
theorem exists_operand_of_group (h : WritesChoice e t) (hc : opensSuffix c = false)
    (hsolid : Text.isSolid (c :: s) = true) :
    ∃ o : Phrase .operand,
      parse (rule .prefixed) (t.grouped ++ c :: s) = some (o, c :: s) ∧ o.lower = .ok e := by
  obtain ⟨p, hp, hlower⟩ := exists_group h hsolid
  exact ⟨.operand none p .bare, parse_operand rfl (parse_suffixed_bare hp hc),
    Phrase.lower_operand.mpr ⟨e, id, hlower, Phrase.lower_bare.mpr rfl, rfl⟩⟩

/-- A choice in parentheses is read as an element wherever no suffix follows. -/
theorem exists_element_of_group (h : WritesChoice e t) (hc : opensSuffix c = false)
    (hsolid : Text.isSolid (c :: s) = true) :
    ∃ x : Phrase .element,
      parse (rule .labeled) (t.grouped ++ c :: s) = some (x, c :: s) ∧ x.lower = .ok e := by
  obtain ⟨o, ho, hlower⟩ := exists_operand_of_group h hc hsolid
  exact exists_element (by decide) rfl ho hlower

/-! ## Elements -/

theorem endsAlternative_cases (h : endsAlternative c = true) : c = ')' ∨ c = ';' ∨ c = '/' := by
  simpa [endsAlternative, endsChoice, or_assoc] using h

theorem opensSuffix_of_endsAlternative (h : endsAlternative c = true) : opensSuffix c = false := by
  rcases endsAlternative_cases h with rfl | rfl | rfl <;> rfl

theorem head?_of_endsAlternative (h : endsAlternative c = true) (s : Text) :
    (c :: s).head? ≠ some (CodePoint.ofChar '{') := by
  rcases endsAlternative_cases h with rfl | rfl | rfl <;>
    exact fun heq => absurd (Option.some.inj heq) (by decide)

theorem opensElement_of_endsAlternative (h : endsAlternative c = true) :
    opensElement c = false := by
  rcases endsAlternative_cases h with rfl | rfl | rfl <;> rfl

theorem endsWord_of_endsAlternative (h : endsAlternative c = true) (s : Text) :
    endsWord (c :: s) = true := by
  rcases endsAlternative_cases h with rfl | rfl | rfl <;> rfl

/-- A text is that of an element where it is read as an operand without a label. -/
theorem writesElement_of_operand (hbegins : opensElement c = true) (hpluck : c ≠ '@')
    (hlabel : c.isWordStart = false)
    (h : ∀ (d : CodePoint) (s : Text), endsAlternative d = true → Text.isSolid (d :: s) = true →
      ∃ o : Phrase .operand, parse (rule .prefixed) (c :: (t ++ d :: s)) = some (o, d :: s) ∧
        o.lower = .ok e) : WritesElement e (c :: t) := by
  refine ⟨hbegins, fun d s hd hsolid => ?_⟩
  obtain ⟨o, ho, hlower⟩ := h d s hd hsolid
  exact exists_element hpluck hlabel ho hlower

/-- A primary is an operand where neither a suffix nor a sign stands with it. -/
theorem exists_operand_of_primary {p : Phrase .primary} {d : CodePoint}
    (hc : opensPrimary c = true) (hd : endsAlternative d = true)
    (hp : parse (rule .primary) (c :: s) = some (p, d :: t)) (hlower : p.lower = .ok e) :
    ∃ o : Phrase .operand, parse (rule .prefixed) (c :: s) = some (o, d :: t) ∧ o.lower = .ok e :=
  ⟨.operand none p .bare,
    parse_operand hc (parse_suffixed_bare hp (opensSuffix_of_endsAlternative hd)),
    Phrase.lower_operand.mpr ⟨e, id, hlower, Phrase.lower_bare.mpr rfl, rfl⟩⟩

theorem writesElement_literal (v : Text) :
    WritesElement (.literals [v] false) v.inQuotes := by
  refine writesElement_of_operand rfl (by decide) rfl fun d s hd hsolid => ?_
  rw [List.append_assoc, List.singleton_append]
  refine exists_operand_of_primary rfl hd (parse_literal (Text.behindMark?_shielded v _)
    (parse_opt_none (parse_ignoreCase_none (endsWord_of_endsAlternative hd s))) hsolid) ?_
  exact Phrase.lower_literal.mpr ⟨v, unescape_shielded v, rfl⟩

theorem writesElement_literal_ignoreCase (v : Text) :
    WritesElement (.literals [v] true) (v.inQuotes ++ [CodePoint.ofChar 'i']) := by
  rw [Text.inQuotes_append]
  refine writesElement_of_operand rfl (by decide) rfl fun d s hd hsolid => ?_
  have hflag : parse (.opt (rule .ignoreCase)) (CodePoint.ofChar 'i' :: d :: s) =
      some (some (), d :: s) :=
    parse_opt_of ((parse_rule _ _).trans (parse_flag (endsWord_of_endsAlternative hd s)))
  rw [List.append_assoc, List.cons_append, List.singleton_append]
  refine exists_operand_of_primary rfl hd
    (parse_literal (Text.behindMark?_shielded v _) hflag hsolid) ?_
  exact Phrase.lower_literal.mpr ⟨v, unescape_shielded v, rfl⟩

theorem writesElement_charClass {pattern : Text} (h : pattern.isClass = true) :
    WritesElement (.charClass pattern) pattern := by
  obtain ⟨pattern, rfl, -⟩ := Text.exists_cons_of_isClass h
  refine writesElement_of_operand rfl (by decide) rfl fun d s hd hsolid => ?_
  exact exists_operand_of_primary rfl hd
    (parse_primary_charClass h (endsWord_of_endsAlternative hd s) hsolid)
    (Phrase.lower_charClass.mpr rfl)

theorem writesElement_anyChar : WritesElement .anyChar [CodePoint.ofChar '.'] :=
  writesElement_of_operand rfl (by decide) rfl fun _ _ hd hsolid =>
    exists_operand_of_primary rfl hd (parse_primary_anyChar hsolid) (Phrase.lower_anyChar.mpr rfl)

/-- A name is read as a label first, and as a reference where no colon follows. -/
theorem writesElement_reference {name : Text} (h : name.isIdentifier = true) :
    WritesElement (.reference name) name := by
  obtain ⟨c, name, rfl, hc, -⟩ := Text.exists_cons_of_isIdentifier h
  have hprimary : opensPrimary c = true := by simp [opensPrimary, hc]
  refine ⟨by simp [beginsElement, opensElement, hprimary], fun d s hd hsolid => ?_⟩
  have hends : d.isWord = false ∧ d ≠ '"' ∧ d ≠ '\'' ∧ d ≠ '=' ∧ d ≠ ':' := by
    rcases endsAlternative_cases hd with rfl | rfl | rfl <;> decide
  obtain ⟨hword, hdouble, hsingle, hequals, hcolon⟩ := hends
  have hname := parse_reference h hword hdouble hsingle hequals hsolid
  rw [List.cons_append] at hname ⊢
  obtain ⟨o, ho, hlower⟩ := exists_operand_of_primary hprimary hd hname
    (Phrase.lower_reference.mpr rfl)
  have hpluck : parse (rule .pluck) (c :: (name ++ d :: s)) = none := by
    refine parse_pluck_none ?_ _
    rintro rfl
    exact absurd hc (by decide)
  have hlabel : parse (rule .label) (c :: (name ++ d :: s)) = none :=
    (parse_rule _ _).trans (parse_left_of_none
      (parse_left_of (parse_identifier h (endsWord_of_endsAlternative hd s))
        (parse_blank hsolid)) (parse_token_none hcolon s))
  exact ⟨.element false none o, parse_labeled (parse_opt_none hpluck) (parse_opt_none hlabel) ho,
    Phrase.lower_element.mpr ⟨_, hlower, rfl⟩⟩

/-- A choice in parentheses with a suffix behind them. -/
theorem writesElement_suffix {mark : Char} {suffix : Phrase .suffix} {wrap : Expr → Expr}
    (h : WritesChoice e t) (hspace : (CodePoint.ofChar mark).isSpace = false)
    (hslash : CodePoint.ofChar mark ≠ '/')
    (hsuffix : ∀ {s : Text}, s.isSolid = true →
      parse (rule .suffix) (CodePoint.ofChar mark :: s) = some (suffix, s))
    (hlower : suffix.lower = .ok wrap) :
    WritesElement (wrap e) (t.grouped ++ [CodePoint.ofChar mark]) := by
  rw [Text.grouped_append]
  refine writesElement_of_operand rfl (by decide) rfl fun d s hd hsolid => ?_
  obtain ⟨p, hp, hlower'⟩ := exists_group h (Text.isSolid_cons hspace hslash (d :: s))
  rw [Text.grouped_append] at hp
  rw [List.append_assoc, List.cons_append, List.singleton_append]
  exact ⟨.operand none p suffix, parse_operand rfl (parse_suffixed hp (hsuffix hsolid)),
    Phrase.lower_operand.mpr ⟨e, wrap, hlower', hlower, rfl⟩⟩

theorem writesElement_text (h : WritesChoice e t) :
    WritesElement (.text e) (CodePoint.ofChar '$' :: t.grouped) := by
  refine writesElement_of_operand rfl (by decide) rfl fun d s hd hsolid => ?_
  obtain ⟨p, hp, hlower⟩ := exists_group h hsolid
  exact ⟨.operand (some .text) p .bare,
    parse_text rfl (parse_suffixed_bare hp (opensSuffix_of_endsAlternative hd)),
    Phrase.lower_operand.mpr ⟨e, id, hlower, Phrase.lower_bare.mpr rfl, rfl⟩⟩

theorem writesElement_lookahead (h : WritesChoice e t) (negated : Bool) :
    WritesElement (.lookahead e negated none) (predicateMark negated :: t.grouped) := by
  have hmark : opensElement (predicateMark negated) = true ∧ predicateMark negated ≠ '@' ∧
      (predicateMark negated).isWordStart = false := by
    cases negated <;> decide
  refine writesElement_of_operand hmark.1 hmark.2.1 hmark.2.2 fun d s hd hsolid => ?_
  obtain ⟨p, hp, hlower⟩ := exists_group h hsolid
  refine ⟨.operand (some (if negated then .negative else .positive)) p .bare,
    parse_lookahead negated rfl rfl
      (parse_suffixed_bare hp (opensSuffix_of_endsAlternative hd)),
    Phrase.lower_operand.mpr ⟨e, id, hlower, Phrase.lower_bare.mpr rfl, ?_⟩⟩
  cases negated <;> rfl

theorem writesElement_semantic {code : Text} (hcode : code.isBlock = true) (negated : Bool) :
    WritesElement (.semantic negated (some code)) (predicateMark negated :: code) := by
  have hmark : opensElement (predicateMark negated) = true ∧ predicateMark negated ≠ '@' ∧
      (predicateMark negated).isWordStart = false := by
    cases negated <;> decide
  refine writesElement_of_operand hmark.1 hmark.2.1 hmark.2.2 fun d s hd hsolid => ?_
  exact ⟨.semantic negated code, parse_semantic negated hcode hsolid,
    Phrase.lower_semantic.mpr rfl⟩

theorem opensElement_of_isWordStart (h : c.isWordStart = true) : opensElement c = true := by
  simp [opensElement, opensPrimary, h]

/-- A group behind a label, if there is one, is read as the label and an operand. -/
theorem exists_labeled_operand (h : WritesChoice e t) {label : Option Text}
    (hlabel : label.all Text.isIdentifier = true) (hc : endsAlternative c = true)
    (hsolid : Text.isSolid (c :: s) = true) :
    ∃ u o, parse (.opt (rule .label))
        (label.elim [] (· ++ [CodePoint.ofChar ':']) ++ (t.grouped ++ c :: s)) = some (label, u) ∧
      parse (rule .prefixed) u = some (o, c :: s) ∧ Phrase.lower o = .ok e := by
  obtain ⟨o, ho, hlower⟩ := exists_operand_of_group h (opensSuffix_of_endsAlternative hc) hsolid
  refine ⟨t.grouped ++ c :: s, o, ?_, ho, hlower⟩
  cases label with
  | none => exact parse_opt_none (parse_label_none rfl _)
  | some name =>
    rw [Option.elim_some, List.append_assoc, List.singleton_append]
    exact parse_opt_of (parse_label hlabel rfl)

/-- What stands behind an `@` begins with a label or a group. -/
theorem beginsElement_label {label : Option Text} (h : label.all Text.isIdentifier = true)
    (s : Text) :
    ∃ d u, label.elim [] (· ++ [CodePoint.ofChar ':']) ++ CodePoint.ofChar '(' :: s = d :: u ∧
      opensElement d = true ∧ d ≠ '@' := by
  cases label with
  | none => exact ⟨_, _, rfl, rfl, by decide⟩
  | some name =>
    obtain ⟨d, name, rfl, hd, -⟩ := Text.exists_cons_of_isIdentifier h
    refine ⟨d, _, rfl, opensElement_of_isWordStart hd, ?_⟩
    rintro rfl
    exact absurd hd (by decide)

theorem writesElement_capture (h : WritesChoice e t) {label : Option Text} {pluck : Bool}
    (hlabel : label.all Text.isIdentifier = true) (hsome : label.isSome = true ∨ pluck = true) :
    WritesElement (.capture e label pluck)
      ((if pluck then [CodePoint.ofChar '@'] else []) ++
        (label.elim [] (· ++ [CodePoint.ofChar ':']) ++ t.grouped)) := by
  have hlowered {o : Phrase .operand} (ho : o.lower = .ok e) :
      (Phrase.element pluck label o).lower = .ok (.capture e label pluck) := by
    refine Phrase.lower_element.mpr ⟨e, ho, if_pos ?_⟩
    rw [Bool.or_eq_true]
    exact hsome.symm
  cases pluck with
  | true =>
    refine ⟨rfl, fun c s hc hsolid => ?_⟩
    obtain ⟨d, u, hu, hd, -⟩ := beginsElement_label hlabel (t ++ CodePoint.ofChar ')' :: c :: s)
    obtain ⟨v, o, hv, ho, hlower⟩ := exists_labeled_operand h hlabel hc hsolid
    have hpluck : parse (.opt (rule .pluck)) (CodePoint.ofChar '@' :: d :: u) =
        some (some (), d :: u) :=
      parse_opt_of (parse_pluck (isSolid_of_beginsElement hd))
    rw [Text.grouped_append, hu] at hv
    refine ⟨.element true label o, ?_, hlowered hlower⟩
    rw [if_pos rfl, List.singleton_append, List.cons_append, List.append_assoc,
      Text.grouped_append, hu]
    exact parse_labeled hpluck hv ho
  | false =>
    refine ⟨?_, fun c s hc hsolid => ?_⟩
    · obtain ⟨d, u, hu, hd, -⟩ := beginsElement_label hlabel (t ++ [CodePoint.ofChar ')'])
      rw [if_neg Bool.false_ne_true, List.nil_append, Text.grouped, hu]
      exact hd
    · obtain ⟨d, u, hu, -, hat⟩ := beginsElement_label hlabel (t ++ CodePoint.ofChar ')' :: c :: s)
      obtain ⟨v, o, hv, ho, hlower⟩ := exists_labeled_operand h hlabel hc hsolid
      rw [Text.grouped_append, hu] at hv
      refine ⟨.element false label o, ?_, hlowered hlower⟩
      rw [if_neg Bool.false_ne_true, List.nil_append, List.append_assoc, Text.grouped_append, hu]
      exact parse_labeled (parse_opt_none (parse_pluck_none hat u)) hv ho

/-! ## Alternatives -/

theorem writesAlternative_of_element (h : WritesElement e t) : WritesAlternative e t := by
  refine ⟨h.1, fun c s hc hsolid => ?_⟩
  obtain ⟨x, hx, hlower⟩ := h.2 c s hc hsolid
  have hstop := parse_labeled_none (opensElement_of_endsAlternative hc) s
  refine ⟨.alternative (.one x) none, parse_actionExpr (parse_sequence hx (parse_star_none hstop))
    (parse_opt_none (parse_action_none (head?_of_endsAlternative hc s))), ?_⟩
  exact Phrase.lower_alternative.mpr ⟨[e], Phrase.lower_one.mpr ⟨e, hlower, rfl⟩, rfl⟩

/-- A sequence of elements means the expressions that the elements mean. -/
theorem lower_ofElements {x : Phrase .element} {xs : List (Phrase .element)} {es : List Expr}
    (hx : x.lower = .ok e)
    (hxs : List.Forall₂ (fun (x : Phrase .element) (e : Expr) => x.lower = .ok e) xs es) :
    (Phrase.ofElements x xs).lower = .ok (e :: es) := by
  induction hxs generalizing x e with
  | nil => exact Phrase.lower_one.mpr ⟨e, hx, rfl⟩
  | cons hy _ ih => exact Phrase.lower_cons.mpr ⟨e, _, hx, ih hy, rfl⟩

theorem lower_ofAlternatives {a : Phrase .alternative} {others : List (Phrase .alternative)}
    {es : List Expr} (ha : a.lower = .ok e)
    (hothers : List.Forall₂ (fun (a : Phrase .alternative) (e : Expr) => a.lower = .ok e)
      others es) :
    (Phrase.ofAlternatives a others).lower = .ok (e :: es) := by
  induction hothers generalizing a e with
  | nil => exact Phrase.lower_last.mpr ⟨e, ha, rfl⟩
  | cons hb _ ih => exact Phrase.lower_or.mpr ⟨e, _, ha, ih hb, rfl⟩

/-- No suffix stands behind a group where another group follows, or what is no suffix. -/
theorem exists_cons_groups (ts : List Text) (hsuffix : opensSuffix c = false)
    (hsolid : Text.isSolid (c :: s) = true) :
    ∃ d u, (ts.map Text.grouped).flatten ++ c :: s = d :: u ∧
      opensSuffix d = false ∧ Text.isSolid (d :: u) = true := by
  cases ts with
  | nil => exact ⟨c, s, rfl, hsuffix, hsolid⟩
  | cons t ts => exact ⟨_, _, rfl, rfl, rfl⟩

/-- Groups one behind the other are read as elements, up to what is neither. -/
theorem exists_elements {ts : List Text} {es : List Expr}
    (h : List.Forall₂ (fun t e => WritesChoice e t) ts es) (helement : opensElement c = false)
    (hsuffix : opensSuffix c = false) (hsolid : Text.isSolid (c :: s) = true) :
    ∃ xs, parse (.star (rule .labeled)) ((ts.map Text.grouped).flatten ++ c :: s) =
        some (xs, c :: s) ∧
      List.Forall₂ (fun (x : Phrase .element) (e : Expr) => x.lower = .ok e) xs es := by
  induction h with
  | nil => exact ⟨[], parse_star_none (parse_labeled_none helement s), .nil⟩
  | @cons t e ts es ht _ ih =>
    obtain ⟨xs, hxs, hlowers⟩ := ih
    obtain ⟨d, u, hu, hd, hsolid'⟩ := exists_cons_groups ts hsuffix hsolid
    obtain ⟨x, hx, hlower⟩ := exists_element_of_group ht hd hsolid'
    rw [hu] at hxs
    rw [List.map_cons, List.flatten_cons, List.append_assoc, hu]
    exact ⟨x :: xs, parse_star_of rfl hx hxs, .cons hlower hlowers⟩

theorem exists_sequence {ts : List Text} {es : List Expr}
    (h : List.Forall₂ (fun t e => WritesChoice e t) ts es) (hne : es ≠ [])
    (helement : opensElement c = false) (hsuffix : opensSuffix c = false)
    (hsolid : Text.isSolid (c :: s) = true) :
    ∃ p : Phrase .sequence, parse (rule .sequence) ((ts.map Text.grouped).flatten ++ c :: s) =
      some (p, c :: s) ∧ p.lower = .ok es := by
  cases h with
  | nil => exact absurd rfl hne
  | @cons t e ts es ht hts =>
    obtain ⟨d, u, hu, hd, hsolid'⟩ := exists_cons_groups ts hsuffix hsolid
    obtain ⟨x, hx, hlower⟩ := exists_element_of_group ht hd hsolid'
    obtain ⟨xs, hxs, hlowers⟩ := exists_elements hts helement hsuffix hsolid
    rw [hu] at hxs
    rw [List.map_cons, List.flatten_cons, List.append_assoc, hu]
    exact ⟨.ofElements x xs, parse_sequence hx hxs, lower_ofElements hlower hlowers⟩

/-- Groups one behind the other are the text of a sequence. -/
theorem writesAlternative_sequence {ts : List Text} {es : List Expr}
    (h : List.Forall₂ (fun t e => WritesChoice e t) ts es) (h2 : 2 ≤ es.length) :
    WritesAlternative (.sequence es) (ts.map Text.grouped).flatten := by
  have hne : es ≠ [] := by
    rintro rfl
    cases h2
  refine ⟨?_, fun c s hc hsolid => ?_⟩
  · cases h with
    | nil => exact absurd rfl hne
    | cons _ _ => rfl
  · obtain ⟨p, hp, hlower⟩ := exists_sequence h hne (opensElement_of_endsAlternative hc)
      (opensSuffix_of_endsAlternative hc) hsolid
    refine ⟨.alternative p none, parse_actionExpr hp
      (parse_opt_none (parse_action_none (head?_of_endsAlternative hc s))), ?_⟩
    exact Phrase.lower_alternative.mpr ⟨es, hlower, Expr.ofElements_sequence h2⟩

/-- A group and the code behind it are the text of an action. -/
theorem writesAlternative_action (h : WritesChoice e t) {code : Text}
    (hcode : code.isBlock = true) : WritesAlternative (.action e code) (t.grouped ++ code) := by
  refine ⟨rfl, fun c s hc hsolid => ?_⟩
  have haction := parse_action hcode hsolid
  rw [List.append_assoc]
  obtain ⟨code, rfl, -⟩ := Text.exists_cons_of_isBlock hcode
  obtain ⟨p, hp, hlower⟩ := exists_sequence (.cons h .nil) (List.cons_ne_nil e [])
    (show opensElement (CodePoint.ofChar '{') = false by decide) (by decide)
    (show Text.isSolid (CodePoint.ofChar '{' :: (code ++ c :: s)) = true from rfl)
  rw [List.map_singleton, List.flatten_singleton] at hp
  exact ⟨.alternative p (some _), parse_actionExpr hp (parse_opt_of haction),
    Phrase.lower_alternative.mpr ⟨[e], hlower, rfl⟩⟩

/-! ## Choices -/

/-- Behind an alternative another one follows or the choice ends. -/
theorem exists_cons_others {ts : List Text} {es : List Expr}
    (h : List.Forall₂ (fun t e => WritesAlternative e t) ts es) (hc : endsChoice c = true)
    (hsolid : Text.isSolid (c :: s) = true) :
    ∃ d u, ts.flatMap ([CodePoint.ofChar '/'] ++ ·) ++ c :: s = d :: u ∧
      endsAlternative d = true ∧ Text.isSolid (d :: u) = true := by
  cases h with
  | nil => exact ⟨c, s, rfl, by simp [endsAlternative, hc], hsolid⟩
  | @cons t e ts es ht _ =>
    refine ⟨CodePoint.ofChar '/', t ++ (ts.flatMap ([CodePoint.ofChar '/'] ++ ·) ++ c :: s), ?_,
      rfl, isSolid_slash (beginsElement_append ht.1 _)⟩
    rw [List.flatMap_cons, List.append_assoc, List.append_assoc]
    rfl

/-- Alternatives, each behind a slash, are read up to the end of their choice. -/
theorem exists_others {ts : List Text} {es : List Expr}
    (h : List.Forall₂ (fun t e => WritesAlternative e t) ts es) (hc : endsChoice c = true)
    (hsolid : Text.isSolid (c :: s) = true) :
    ∃ others, parse (.star (token '/' *> rule .actionExpr))
        (ts.flatMap ([CodePoint.ofChar '/'] ++ ·) ++ c :: s) = some (others, c :: s) ∧
      List.Forall₂ (fun (a : Phrase .alternative) (e : Expr) => a.lower = .ok e) others es := by
  induction h with
  | nil =>
    refine ⟨[], parse_star_none (parse_right_none (parse_token_none ?_ s) _), .nil⟩
    rintro rfl
    exact absurd hc (by decide)
  | @cons t e ts es ht hts ih =>
    obtain ⟨others, hothers, hlowers⟩ := ih
    obtain ⟨d, u, hu, hd, hsolid'⟩ := exists_cons_others hts hc hsolid
    obtain ⟨a, ha, hlower⟩ := ht.2 d u hd hsolid'
    have hopen := isSolid_of_beginsElement (beginsElement_append ht.1 (d :: u))
    rw [hu] at hothers
    rw [List.flatMap_cons, List.append_assoc, List.append_assoc, hu]
    exact ⟨a :: others, parse_star_of rfl (parse_right_of (parse_token '/' hopen) ha) hothers,
      .cons hlower hlowers⟩

/-- Alternatives with slashes between them are the text of a choice of what they mean. -/
theorem writesChoice_of_alternatives {ts : List Text} {es : List Expr}
    (h : List.Forall₂ (fun t e => WritesAlternative e t) ts es) (hne : es ≠ [])
    (he : Expr.ofAlternatives es = e) :
    WritesChoice e (Text.join [CodePoint.ofChar '/'] ts) := by
  cases h with
  | nil => exact absurd rfl hne
  | @cons t e' ts es ht hts =>
    rw [Text.join_cons]
    refine ⟨beginsElement_append ht.1 _, fun c s hc hsolid => ?_⟩
    obtain ⟨d, u, hu, hd, hsolid'⟩ := exists_cons_others hts hc hsolid
    obtain ⟨a, ha, hlower⟩ := ht.2 d u hd hsolid'
    obtain ⟨others, hothers, hlowers⟩ := exists_others hts hc hsolid
    rw [hu] at hothers
    rw [List.append_assoc, hu]
    exact ⟨.ofAlternatives a others, parse_choice ha hothers, e' :: es,
      lower_ofAlternatives hlower hlowers, he⟩

theorem writesChoice_of_alternative (h : WritesAlternative e t) : WritesChoice e t := by
  have hchoice := writesChoice_of_alternatives (.cons h .nil) (List.cons_ne_nil e []) rfl
  rwa [Text.join_singleton] at hchoice

theorem writesChoice_of_element (h : WritesElement e t) : WritesChoice e t :=
  writesChoice_of_alternative (writesAlternative_of_element h)

theorem writesElement_group (h : WritesChoice e t) : WritesElement e t.grouped :=
  ⟨rfl, fun _ _ hc hsolid => exists_element_of_group h (opensSuffix_of_endsAlternative hc) hsolid⟩

end Source

end RuleTypes
