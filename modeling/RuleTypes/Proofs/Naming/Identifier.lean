import RuleTypes.Proofs.Naming.Fresh
import RuleTypes.Proofs.Text.Delimited

/-!
# Identifiers of rules are identifiers

The type name of an identifier begins with a capital letter, or it is the name itself and begins
with an underscore; letters, digits and underscores follow. Digits behind it change nothing about
that, so the identifier that a namer gives is an identifier and, in camel case, no keyword.

* `typeName_cases`: the two forms of a type name.
* `Namer.isIdentifier_nameOf`: rules that are called by identifiers get identifiers.
* `Namer.nameOf_head`: in camel case these do not begin with a small letter.
-/

namespace RuleTypes

/-! ## Capital letters -/

namespace CodePoint

theorem isUpper_toUpper {c : CodePoint} (h : c.isLetter = true) : c.toUpper.isUpper = true := by
  by_cases hlower : c.isLower = true
  · have hnat : c.toUpper.toNat = c.toNat - 32 := by
      rw [toUpper, dif_pos hlower]
    have ha : ('a' : Char).toNat = 97 := rfl
    have hz : ('z' : Char).toNat = 122 := rfl
    have hA : ('A' : Char).toNat = 65 := rfl
    have hZ : ('Z' : Char).toNat = 90 := rfl
    simp only [isLower, inRange, Bool.and_eq_true, decide_eq_true_eq] at hlower
    simp only [isUpper, inRange, hnat, Bool.and_eq_true, decide_eq_true_eq]
    omega
  · rw [toUpper, dif_neg hlower]
    exact ((Bool.or_eq_true _ _).mp h).resolve_right hlower

theorem isLetter_of_isUpper {c : CodePoint} (h : c.isUpper = true) : c.isLetter = true := by
  rw [isLetter, h, Bool.true_or]

theorem isAlphanumeric_toUpper {c : CodePoint} (h : c.isAlphanumeric = true) :
    c.toUpper.isAlphanumeric = true := by
  by_cases hletter : c.isLetter = true
  · rw [isAlphanumeric, isLetter_of_isUpper (isUpper_toUpper hletter), Bool.true_or]
  · have hlower : ¬ c.isLower = true := fun hlower => hletter (by simp [isLetter, hlower])
    rwa [toUpper, dif_neg hlower]

/-- A capital is a letter that was one, small or not. -/
theorem isLetter_of_toUpper {c : CodePoint} (h : c.toUpper.isLetter = true) :
    c.isLetter = true := by
  by_cases hlower : c.isLower = true
  · simp [isLetter, hlower]
  · rwa [toUpper, dif_neg hlower] at h

theorem isLower_of_isUpper {c : CodePoint} (h : c.isUpper = true) : c.isLower = false := by
  have hZ : ('Z' : Char).toNat = 90 := rfl
  have ha : ('a' : Char).toNat = 97 := rfl
  simp only [isUpper, inRange, Bool.and_eq_true, decide_eq_true_eq] at h
  simp only [isLower, inRange, Bool.and_eq_false_iff, decide_eq_false_iff_not]
  omega

end CodePoint

/-! ## Type names -/

theorem Text.not_of_mem_pieces {isSeparator : CodePoint → Bool} {t : Text} :
    ∀ piece ∈ Text.pieces isSeparator t, ∀ c ∈ piece, isSeparator c = false := by
  induction t with
  | nil => simp [Text.pieces]
  | cons c t ih =>
    have hhead : ∀ d ∈ (Text.pieces isSeparator t).headD [], isSeparator d = false := by
      cases hpieces : Text.pieces isSeparator t with
      | nil => simp
      | cons piece pieces => exact ih piece (by rw [hpieces]; exact List.mem_cons_self)
    unfold Text.pieces
    by_cases hc : isSeparator c = true
    · simp only [hc, if_true]
      exact List.forall_mem_cons.mpr ⟨by simp, ih⟩
    · simp only [hc]
      refine List.forall_mem_cons.mpr ⟨?_, fun piece h => ih piece (List.mem_of_mem_tail h)⟩
      exact List.forall_mem_cons.mpr ⟨Bool.eq_false_iff.mpr hc, hhead⟩

theorem isAlphanumeric_of_mem_capitalize {t : Text} (h : ∀ c ∈ t, c.isAlphanumeric = true) :
    ∀ c ∈ capitalize t, c.isAlphanumeric = true := by
  cases t with
  | nil => exact h
  | cons c t =>
    obtain ⟨hc, ht⟩ := List.forall_mem_cons.mp h
    exact List.forall_mem_cons.mpr ⟨CodePoint.isAlphanumeric_toUpper hc, ht⟩

/-- Capitalised words begin with a capital, if one of them begins with a letter. -/
theorem exists_toUpper_of_capitalize {words : List Text} {c : CodePoint} {rest : Text}
    (h : words.flatMap capitalize = c :: rest) : ∃ d : CodePoint, c = d.toUpper := by
  induction words with
  | nil => cases h
  | cons word words ih =>
    rw [List.flatMap_cons] at h
    cases word with
    | nil => exact ih h
    | cons d word => exact ⟨d, (List.cons.inj h).1.symm⟩

/-- The type name of a rule is a capital with letters and digits behind it, or the name of the rule
itself, which does not begin with a letter then. -/
theorem typeName_cases (rule : Text) :
    (∃ c rest, typeName rule = c :: rest ∧ c.isUpper = true ∧
      ∀ d ∈ rest, d.isAlphanumeric = true) ∨
    (typeName rule = rule ∧ ∀ c rest, rule = c :: rest → c.isLetter = false) := by
  have hall : ∀ d ∈ (Text.pieces (!·.isAlphanumeric) rule).flatMap capitalize,
      d.isAlphanumeric = true := by
    intro d hd
    obtain ⟨piece, hpiece, hd⟩ := List.mem_flatMap.mp hd
    refine isAlphanumeric_of_mem_capitalize (fun c hc => ?_) d hd
    simpa using Text.not_of_mem_pieces piece hpiece c hc
  -- A rule that begins with a letter has a type name that begins with its capital.
  have hletter : ∀ c rest, rule = c :: rest → c.isLetter = true →
      ∃ rest', (Text.pieces (!·.isAlphanumeric) rule).flatMap capitalize = c.toUpper :: rest' := by
    rintro c rest rfl hc
    have hpieces : Text.pieces (!·.isAlphanumeric) (c :: rest) =
        (c :: (Text.pieces (!·.isAlphanumeric) rest).headD []) ::
          (Text.pieces (!·.isAlphanumeric) rest).tail :=
      if_neg (by simp [CodePoint.isAlphanumeric, hc])
    rw [hpieces, List.flatMap_cons, capitalize, List.cons_append]
    exact ⟨_, rfl⟩
  cases hwords : (Text.pieces (!·.isAlphanumeric) rule).flatMap capitalize with
  | nil =>
    have hname : typeName rule = rule := by simp only [typeName, hwords]
    refine .inr ⟨hname, fun c rest hrule => Bool.eq_false_iff.mpr fun hc => ?_⟩
    obtain ⟨rest', hrest⟩ := hletter c rest hrule hc
    rw [hwords] at hrest
    cases hrest
  | cons c rest =>
    have hname : typeName rule = if c.isLetter then c :: rest else rule := by
      simp only [typeName, hwords]
    rw [hwords] at hall
    obtain ⟨d, rfl⟩ := exists_toUpper_of_capitalize hwords
    by_cases hupper : d.toUpper.isLetter = true
    · rw [if_pos hupper] at hname
      refine .inl ⟨_, rest, hname, ?_, (List.forall_mem_cons.mp hall).2⟩
      exact CodePoint.isUpper_toUpper (CodePoint.isLetter_of_toUpper hupper)
    · rw [if_neg hupper] at hname
      refine .inr ⟨hname, fun c rest' hrule => Bool.eq_false_iff.mpr fun hc => hupper ?_⟩
      obtain ⟨rest'', hrest⟩ := hletter c rest' hrule hc
      rw [hwords] at hrest
      rw [(List.cons.inj hrest).1]
      exact CodePoint.isLetter_of_isUpper (CodePoint.isUpper_toUpper hc)

theorem isIdentifier_typeName {rule : Text} (h : rule.isIdentifier = true) :
    (typeName rule).isIdentifier = true := by
  rcases typeName_cases rule with ⟨c, rest, hname, hc, hrest⟩ | ⟨hname, -⟩
  · have hall : rest.all CodePoint.isWord = true := by
      rw [List.all_eq_true]
      intro d hd
      simp [CodePoint.isWord, hrest d hd]
    have hstart : c.isWordStart = true := by
      simp [CodePoint.isWordStart, CodePoint.isLetter_of_isUpper hc]
    rw [hname, Text.isIdentifier, hstart, hall]
    rfl
  · rwa [hname]

/-- The type name of an identifier begins with no small letter. -/
theorem typeName_head {rule : Text} (h : rule.isIdentifier = true) :
    ∃ c rest, typeName rule = c :: rest ∧ c.isLower = false := by
  rcases typeName_cases rule with ⟨c, rest, hname, hc, -⟩ | ⟨hname, hletter⟩
  · exact ⟨c, rest, hname, CodePoint.isLower_of_isUpper hc⟩
  · obtain ⟨c, rest, rfl, -, -⟩ := Text.exists_cons_of_isIdentifier h
    refine ⟨c, rest, hname, ?_⟩
    have := hletter c rest rfl
    exact (Bool.or_eq_false_iff.mp this).2

theorem Text.isIdentifier_append {s digits : Text} (h : s.isIdentifier = true)
    (hdigits : ∀ d ∈ digits, d.isDigit = true) : Text.isIdentifier (s ++ digits) = true := by
  obtain ⟨c, rest, rfl, hc, hrest⟩ := exists_cons_of_isIdentifier h
  have hall : digits.all CodePoint.isWord = true := by
    rw [List.all_eq_true]
    intro d hd
    simp [CodePoint.isWord, CodePoint.isAlphanumeric, hdigits d hd]
  simp [isIdentifier, hc, hrest, hall]

/-! ## The identifiers of a namer -/

namespace Namer

variable {camelCase : Bool} {rules : List Text} {rule : Text}

theorem isIdentifier_base (h : rule.isIdentifier = true) :
    (base camelCase rule).isIdentifier = true := by
  cases camelCase with
  | false => exact h
  | true => exact isIdentifier_typeName h

/-- Rules that are called by identifiers get identifiers. -/
theorem isIdentifier_nameOf (hrule : rule ∈ rules) (h : rule.isIdentifier = true) :
    ((ofRules camelCase rules).nameOf rule).isIdentifier = true := by
  obtain ⟨digits, hname, hdigits⟩ := nameOf_digits camelCase hrule
  rw [hname]
  exact Text.isIdentifier_append (isIdentifier_base h) hdigits

/-- In camel case the identifier of a rule begins with no small letter. -/
theorem nameOf_head (hrule : rule ∈ rules) (h : rule.isIdentifier = true) :
    ∃ c rest, (ofRules true rules).nameOf rule = c :: rest ∧ c.isLower = false := by
  obtain ⟨digits, hname, -⟩ := nameOf_digits true hrule
  obtain ⟨c, rest, hhead, hc⟩ := typeName_head h
  refine ⟨c, rest ++ digits, ?_, hc⟩
  have hbase : base true rule = c :: rest := hhead
  rw [hname, hbase, List.cons_append]

end Namer

end RuleTypes
