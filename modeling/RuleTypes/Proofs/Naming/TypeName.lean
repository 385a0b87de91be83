import RuleTypes.Proofs.Naming.Identifier
import RuleTypes.Proofs.Source.Tokens
import RuleTypes.Proofs.Source.WellFormed

/-!
# Type names are normal forms

The type name of a text has the letters and digits of the text, in their order and with nothing
between them, and begins with a capital. Only case may be lost. A text without letters and digits,
or of which a digit is the first, has no such name and stays as it is. So the type name of a type
name is that name.

* `Text.IsTypeName`: the texts that type names are made to be; `typeName_of_isTypeName`: they stay.
* `camelCase`: the words of a text, one behind the other. `capitals_camelCase`: no letter or digit
  is lost, and `exists_camelCase`: which one is the first.
* `Nonterminal.scan_identifier_iff`: the names that rules may have in a source.
* `typeName_normalizes`: all of it together.
-/

namespace RuleTypes

/-! ## Letters and digits -/

namespace CodePoint

variable {c : CodePoint}

theorem isLetter_of_isDigit (h : c.isDigit = true) : c.isLetter = false := by
  have h9 : ('9' : Char).toNat = 57 := rfl
  have hA : ('A' : Char).toNat = 65 := rfl
  have ha : ('a' : Char).toNat = 97 := rfl
  simp only [isDigit, inRange, Bool.and_eq_true, decide_eq_true_eq] at h
  simp only [isLetter, isUpper, isLower, inRange, Bool.or_eq_false_iff, Bool.and_eq_false_iff,
    decide_eq_false_iff_not]
  omega

theorem toUpper_of_isUpper (h : c.isUpper = true) : c.toUpper = c := by
  rw [toUpper, dif_neg (Bool.eq_false_iff.mp (isLower_of_isUpper h))]

@[simp] theorem toUpper_toUpper (c : CodePoint) : c.toUpper.toUpper = c.toUpper := by
  by_cases hlower : c.isLower = true
  · exact toUpper_of_isUpper (isUpper_toUpper (by simp [isLetter, hlower]))
  · have hsame : c.toUpper = c := by rw [toUpper, dif_neg hlower]
    rw [hsame, hsame]

end CodePoint

namespace Text

variable {t : Text}

/-- The letters and digits of a text, in their order. -/
def alphanumerics (t : Text) : Text := t.filter CodePoint.isAlphanumeric

/-- The text with all letters in upper case: what is left of it when case is ignored. -/
def capitals (t : Text) : Text := t.map CodePoint.toUpper

/-- Whether no type name can be made of a text: it has no letters and digits, or a digit is the
first of them. -/
def IsNameless (t : Text) : Prop :=
  t.alphanumerics = [] ∨ ∃ d rest, t.alphanumerics = d :: rest ∧ d.isDigit = true

/-- A capital with letters and digits behind it. -/
def IsTypeName (t : Text) : Prop :=
  ∃ c rest, t = c :: rest ∧ c.isUpper = true ∧ ∀ d ∈ rest, d.isAlphanumeric = true

theorem capitals_append (s t : Text) : capitals (s ++ t) = s.capitals ++ t.capitals :=
  List.map_append

theorem mem_alphanumerics {c : CodePoint} :
    c ∈ t.alphanumerics ↔ c ∈ t ∧ c.isAlphanumeric = true := List.mem_filter

theorem IsTypeName.isAlphanumeric (h : t.IsTypeName) : ∀ c ∈ t, c.isAlphanumeric = true := by
  obtain ⟨c, rest, rfl, hc, hrest⟩ := h
  refine List.forall_mem_cons.mpr ⟨?_, hrest⟩
  rw [CodePoint.isAlphanumeric, CodePoint.isLetter_of_isUpper hc, Bool.true_or]

/-- A text from which a type name can be made has a letter before all other letters and digits. -/
theorem not_isNameless_iff :
    ¬ t.IsNameless ↔ ∃ c rest, t.alphanumerics = c :: rest ∧ c.isLetter = true := by
  constructor
  · intro h
    cases hall : t.alphanumerics with
    | nil => exact absurd (.inl hall) h
    | cons c rest =>
      have hc : c.isAlphanumeric = true := (mem_alphanumerics.mp (hall ▸ List.mem_cons_self)).2
      have hdigit : ¬ c.isDigit = true := fun hd => h (.inr ⟨c, rest, hall, hd⟩)
      exact ⟨c, rest, rfl, ((Bool.or_eq_true _ _).mp hc).resolve_right hdigit⟩
  · rintro ⟨c, rest, hall, hc⟩ (hnil | ⟨d, rest', hcons, hd⟩)
    · rw [hall] at hnil
      cases hnil
    · rw [hall] at hcons
      rw [(List.cons.inj hcons).1, CodePoint.isLetter_of_isDigit hd] at hc
      cases hc

/-! ## Pieces -/

/-- The pieces of a text hold everything but the separators. -/
theorem flatten_pieces (isSeparator : CodePoint → Bool) (t : Text) :
    (pieces isSeparator t).flatten = t.filter (!isSeparator ·) := by
  induction t with
  | nil => rfl
  | cons c t ih =>
    obtain ⟨piece, others, hpieces⟩ := List.exists_cons_of_ne_nil (pieces_ne_nil isSeparator t)
    rw [hpieces, List.flatten_cons] at ih
    by_cases hc : isSeparator c = true
    · simp [pieces, hpieces, hc, ih]
    · simp [pieces, hpieces, hc, ih]

/-- A text without separators is one piece. -/
theorem pieces_of_none {isSeparator : CodePoint → Bool} (h : ∀ c ∈ t, isSeparator c = false) :
    pieces isSeparator t = [t] := by
  induction t with
  | nil => rfl
  | cons c t ih =>
    obtain ⟨hc, ht⟩ := List.forall_mem_cons.mp h
    simp [pieces, hc, ih ht]

end Text

/-! ## Words -/

theorem capitals_capitalize (t : Text) : (capitalize t).capitals = t.capitals := by
  cases t with
  | nil => rfl
  | cons c t => simp [capitalize, Text.capitals]

/-- The words of a text, which are its pieces of letters and digits, one behind the other and each
with its first letter in upper case. -/
def camelCase (t : Text) : Text := (Text.pieces (!·.isAlphanumeric) t).flatMap capitalize

variable {t : Text}

/-- Camel casing loses no letter and no digit. -/
theorem capitals_camelCase (t : Text) : (camelCase t).capitals = t.alphanumerics.capitals := by
  have hwords (words : List Text) :
      Text.capitals (words.flatMap capitalize) = Text.capitals words.flatten := by
    induction words with
    | nil => rfl
    | cons word words ih =>
      rw [List.flatMap_cons, List.flatten_cons, Text.capitals_append, Text.capitals_append,
        capitals_capitalize, ih]
  rw [camelCase, hwords, Text.flatten_pieces]
  simp only [Bool.not_not]
  rfl

theorem isAlphanumeric_of_mem_camelCase : ∀ c ∈ camelCase t, c.isAlphanumeric = true := by
  intro c hc
  obtain ⟨piece, hpiece, hc⟩ := List.mem_flatMap.mp hc
  refine isAlphanumeric_of_mem_capitalize (fun d hd => ?_) c hc
  simpa using Text.not_of_mem_pieces piece hpiece d hd

/-- The first letter or digit of a text is the first in camel case too, in upper case. -/
theorem exists_camelCase {c : CodePoint} {rest : Text} (h : t.alphanumerics = c :: rest) :
    ∃ rest', camelCase t = c.toUpper :: rest' := by
  have hcapitals := capitals_camelCase t
  rw [h] at hcapitals
  obtain ⟨d, rest', hname, hd, -⟩ := List.map_eq_cons_iff.mp hcapitals
  obtain ⟨e, rfl⟩ := exists_toUpper_of_capitalize hname
  rw [CodePoint.toUpper_toUpper] at hd
  exact ⟨rest', hd ▸ hname⟩

theorem camelCase_of_isTypeName (h : t.IsTypeName) : camelCase t = t := by
  have hall := h.isAlphanumeric
  obtain ⟨c, rest, rfl, hc, -⟩ := h
  rw [camelCase, Text.pieces_of_none (fun d hd => by simp [hall d hd]), List.flatMap_singleton,
    capitalize, CodePoint.toUpper_of_isUpper hc]

/-! ## Type names -/

theorem typeName_eq (t : Text) :
    typeName t =
      match camelCase t with
      | [] => t
      | c :: _ => if c.isLetter then camelCase t else t := rfl

theorem typeName_of_isNameless (h : t.IsNameless) : typeName t = t := by
  rw [typeName_eq]
  rcases h with hnil | ⟨d, rest, hcons, hd⟩
  · have hcapitals := capitals_camelCase t
    rw [hnil] at hcapitals
    rw [List.map_eq_nil_iff.mp hcapitals]
  · obtain ⟨rest', hname⟩ := exists_camelCase hcons
    have hdigit : d.toUpper.isLetter = false := by
      refine Bool.eq_false_iff.mpr fun hletter => ?_
      have := CodePoint.isLetter_of_isDigit hd
      rw [CodePoint.isLetter_of_toUpper hletter] at this
      cases this
    rw [hname]
    exact if_neg (by simp [hdigit])

/-- Where letters come first, the type name is the text in camel case. -/
theorem typeName_eq_camelCase (h : ¬ t.IsNameless) :
    typeName t = camelCase t ∧ (camelCase t).IsTypeName := by
  obtain ⟨c, rest, hcons, hc⟩ := Text.not_isNameless_iff.mp h
  obtain ⟨rest', hname⟩ := exists_camelCase hcons
  have hupper := CodePoint.isUpper_toUpper hc
  have hall := isAlphanumeric_of_mem_camelCase (t := t)
  rw [hname] at hall
  refine ⟨?_, _, rest', hname, hupper, (List.forall_mem_cons.mp hall).2⟩
  rw [typeName_eq, hname]
  exact if_pos (CodePoint.isLetter_of_isUpper hupper)

theorem typeName_of_isTypeName (h : t.IsTypeName) : typeName t = t := by
  by_cases hnone : t.IsNameless
  · exact typeName_of_isNameless hnone
  · rw [(typeName_eq_camelCase hnone).1, camelCase_of_isTypeName h]

theorem typeName_typeName (t : Text) : typeName (typeName t) = typeName t := by
  by_cases hnone : t.IsNameless
  · rw [typeName_of_isNameless hnone, typeName_of_isNameless hnone]
  · obtain ⟨hname, hformed⟩ := typeName_eq_camelCase hnone
    rw [hname, typeName_of_isTypeName hformed]

theorem typeName_eq_self_iff : typeName t = t ↔ t.IsNameless ∨ t.IsTypeName := by
  constructor
  · intro hsame
    refine Classical.or_iff_not_imp_left.mpr fun hnone => ?_
    obtain ⟨hname, hformed⟩ := typeName_eq_camelCase hnone
    rwa [← hname, hsame] at hformed
  · rintro (hnone | hformed)
    · exact typeName_of_isNameless hnone
    · exact typeName_of_isTypeName hformed

/-! ## Names of rules -/

namespace Source.Nonterminal

/-- The names that a source may give to its rules are the identifiers. -/
theorem scan_identifier_iff {name : Text} :
    (∃ value width, identifier.scan name = .ok value width []) ↔ name.isIdentifier = true := by
  constructor
  · rintro ⟨value, width, hscan⟩
    obtain ⟨_, -, -, hvalue⟩ :=
      Peg.matchRule_derives reads_of_derives _ .identifier name value width [] hscan
    -- The value of an identifier is the text that it takes, which is all of it.
    have hread := (Expression.parse_rule .identifier name).symm.trans (scan_eq_ok_iff.mp hscan).1
    obtain ⟨found, -, hfound⟩ := Option.map_eq_some_iff.mp
      ((Expression.parse_source _ name).symm.trans hread)
    obtain ⟨hname, hrest⟩ := Prod.mk.inj hfound
    rw [hrest, List.length_nil, Nat.sub_zero, List.take_length] at hname
    exact hname ▸ hvalue
  · intro h
    have hread : Expression.parse (Expression.rule .identifier) (name ++ []) = some (name, []) :=
      parse_identifier h rfl
    rw [List.append_nil] at hread
    obtain ⟨width, -, -, hscan⟩ := exists_scan_of_parse hread
    exact ⟨name, width, hscan⟩

end Source.Nonterminal

/-- **Type names are normal forms.** The type name of a type name is that name. A text is its own
type name if it has no letters and digits, if a digit is the first of them, or if it is a type name
already. Of any other text the type name is a capital with letters and digits behind it, and these
are, but for case, the letters and digits of the text in their order. What a source may call a rule
has a type name that it may call a rule as well. -/
theorem typeName_normalizes (raw : Text) :
    typeName (typeName raw) = typeName raw ∧
      (typeName raw = raw ↔ raw.IsNameless ∨ raw.IsTypeName) ∧
      (¬ raw.IsNameless → (typeName raw).IsTypeName ∧
        (typeName raw).capitals = raw.alphanumerics.capitals) ∧
      ((∃ value width, Source.Nonterminal.identifier.scan raw = .ok value width []) ↔
        raw.isIdentifier = true) ∧
      (raw.isIdentifier = true → (typeName raw).isIdentifier = true) := by
  refine ⟨typeName_typeName raw, typeName_eq_self_iff, fun hnamed => ?_,
    Source.Nonterminal.scan_identifier_iff, isIdentifier_typeName⟩
  obtain ⟨hname, hformed⟩ := typeName_eq_camelCase hnamed
  rw [hname]
  exact ⟨hformed, capitals_camelCase raw⟩

/-- Words that begin with digits, behind one that does not, and a text of which a digit is the first
letter or digit. -/
theorem typeName_normalizes_words :
    typeName "_x2__3d-é_yZ" = "X23dYZ" ∧
      ((typeName "_x2__3d-é_yZ").IsTypeName ∧
        (typeName "_x2__3d-é_yZ").capitals = Text.capitals "x23dyZ") ∧
      typeName "__3d_y" = "__3d_y" ∧ (typeName "_x2__3d").isIdentifier = true := by
  have hnamed : ¬ Text.IsNameless "_x2__3d-é_yZ" :=
    Text.not_isNameless_iff.mpr ⟨CodePoint.ofChar 'x', "23dyZ", by decide, by decide⟩
  have hnone : Text.IsNameless "__3d_y" := .inr ⟨CodePoint.ofChar '3', "dy", by decide, by decide⟩
  exact ⟨by decide, (typeName_normalizes _).2.2.1 hnamed,
    (typeName_normalizes _).2.1.mpr (.inl hnone), (typeName_normalizes _).2.2.2.2 (by decide)⟩

end RuleTypes
