import RuleTypes.Proofs.Source.Lowering

/-!
# Which sources can be decoded

Decoding a literal fails at an escape whose number is no code point and nowhere else, and a bound is
not read where it has too many digits. Lowering fails at the first literal or bound that fails, and
nowhere else: in a display name, in a delimiter or anywhere in a body.

* `Text.escapes`: the escapes of a literal's body.
* `exists_unescape_iff`: which bodies can be decoded.
* `Phrase.encoded`, `Rule.encoded`: the literals and bounds in what is written, in order.
  `Rule.literalBodies` and `Rule.numerals` are the two kinds apart.
* `Rule.errorOf?_lower`: what lowering a rule fails with.
* `exists_mapM_lower_iff`: which rules can be lowered.
-/

namespace RuleTypes

/-! ## Failing computations -/

section

variable {ε α β γ : Type} {x : Except ε α} {y : Except ε β} {f : α → β → γ} {e : ε}

/-- What a computation fails with, if it does. -/
def errorOf? : Except ε α → Option ε
  | .ok _ => none
  | .error e => some e

theorem errorOf?_eq_none_iff : errorOf? x = none ↔ ∃ a, x = .ok a := by
  cases x <;> simp [errorOf?]

theorem errorOf?_eq_some_iff : errorOf? x = some e ↔ x = .error e := by
  cases x <;> simp [errorOf?]

theorem errorOf?_bind_pure {f : α → β} : errorOf? (do return f (← x)) = errorOf? x := by
  cases x <;> rfl

/-- Of two steps the first that fails counts. -/
theorem errorOf?_bind_bind_pure :
    errorOf? (do let a ← x; let b ← y; return f a b) = (errorOf? x).or (errorOf? y) := by
  cases x <;> cases y <;> rfl

theorem errorOf?_mapM {f : α → Except ε β} (a? : Option α) :
    errorOf? (a?.mapM f) = a?.toList.findSome? fun a => errorOf? (f a) := by
  cases a? with
  | none => rfl
  | some a =>
    rw [Option.toList_some, List.findSome?_singleton]
    exact errorOf?_bind_pure

theorem exists_map_iff {f : α → β} : (∃ b, (do return f (← x)) = .ok b) ↔ ∃ a, x = .ok a := by
  rw [← errorOf?_eq_none_iff, errorOf?_bind_pure, errorOf?_eq_none_iff]

theorem exists_bind_pure_iff : (∃ c, (do let a ← x; let b ← y; return f a b) = .ok c) ↔
    (∃ a, x = .ok a) ∧ ∃ b, y = .ok b := by
  rw [← errorOf?_eq_none_iff, errorOf?_bind_bind_pure, Option.or_eq_none_iff,
    errorOf?_eq_none_iff, errorOf?_eq_none_iff]

end

/-! ## Escapes -/

/-- The escapes of a literal's body, from left to right. -/
def Text.escapes : Text → List Escape
  | [] => []
  | c :: rest =>
    if c = '\\' then
      match Escape.scan? rest with
      | none => []
      | some (escape, taken) => escape :: escapes (rest.drop taken)
    else escapes rest
termination_by t => t.length
decreasing_by all_goals simp; try omega

/-- Whether every number among the escapes of a body is that of a code point. -/
def Text.Decodable (t : Text) : Prop := ∀ n, .number n ∈ t.escapes → n < 0x110000

theorem Escape.exists_decode_iff {e : Escape} :
    (∃ t, e.decode = .ok t) ↔ ∀ n, e = .number n → n < 0x110000 := by
  cases e with
  | number n =>
    by_cases h : n < 0x110000 <;> simp [decode, CodePoint.ofNat?, h]
  | lineBreak => simp [decode]
  | single c => simp [decode]

/-- A body can be decoded where every number in it is that of a code point. -/
theorem exists_unescape_iff (t : Text) : (∃ v, unescape t = .ok v) ↔ t.Decodable := by
  unfold Text.Decodable
  fun_induction Text.escapes t with
  | case1 => simp [unescape]
  | case2 rest hscan => simp [unescape, hscan]
  | case3 rest escape taken hscan ih =>
    rw [unescape, if_pos rfl, hscan]
    simp only [exists_bind_pure_iff, Escape.exists_decode_iff, ih, List.mem_cons]
    constructor
    · rintro ⟨hfirst, hothers⟩ n (rfl | hn)
      · exact hfirst n rfl
      · exact hothers n hn
    · intro h
      exact ⟨fun n hn => h n (.inl hn.symm), fun n hn => h n (.inr hn)⟩
  | case4 c rest hc ih =>
    rw [unescape, if_neg hc, ← ih]
    exact exists_map_iff

namespace Source

/-! ## Phrases -/

/-- What has to be decoded in what is written: the body of a literal, or the digits of a bound. -/
inductive Encoded where
  | literal (body : Text)
  | numeral (digits : Text)

namespace Encoded

def literal? : Encoded → Option Text
  | .literal body => some body
  | .numeral _ => none

def numeral? : Encoded → Option Text
  | .literal _ => none
  | .numeral digits => some digits

/-- What decoding fails with. -/
def error? : Encoded → Option DecodingError
  | .literal body => errorOf? (decodeLiteral body)
  | .numeral digits => errorOf? (readBound digits)

/-- A literal can be decoded where its escapes can. -/
theorem error?_literal_eq_none_iff {body : Text} :
    (literal body).error? = none ↔ body.Decodable := by
  rw [error?, errorOf?_eq_none_iff, ← exists_unescape_iff]
  exact exists_congr fun _ => decodeLiteral_eq_ok

/-- Digits are read where there are not too many. -/
theorem error?_numeral (digits : Text) :
    (numeral digits).error? =
      if digits.length ≤ Numeral.maxDigits then none else some .numeral := by
  rw [error?, readBound, Numeral.readDecimal?]
  split <;> rfl

theorem error?_eq_none_iff {x : Encoded} :
    x.error? = none ↔ (∀ body, x.literal? = some body → body.Decodable) ∧
      ∀ digits, x.numeral? = some digits → digits.length ≤ Numeral.maxDigits := by
  cases x with
  | literal body => simp [literal?, numeral?, error?_literal_eq_none_iff]
  | numeral digits => simp [literal?, numeral?, error?_numeral]

end Encoded

/-- The digits of bounds. -/
def Bounds.encoded (bounds : Bounds) : List Encoded :=
  (bounds.minimum.toList ++ bounds.maximum.toList).map .numeral

theorem Bounds.errorOf?_guaranteed (bounds : Bounds) :
    errorOf? bounds.guaranteed = bounds.encoded.findSome? Encoded.error? := by
  have hbound (digits? : Option Text) : errorOf? (digits?.mapM readBound) =
      digits?.toList.findSome? (Encoded.error? ∘ .numeral) := errorOf?_mapM digits?
  rw [encoded, List.findSome?_map, List.findSome?_append, ← hbound, ← hbound]
  exact errorOf?_bind_bind_pure

/-- The literals and bounds in a phrase, in the order in which they are written. -/
def Phrase.encoded : {k : Kind} → Phrase k → List Encoded
  | _, .last a => a.encoded
  | _, .or a others => a.encoded ++ others.encoded
  | _, .alternative es _ => es.encoded
  | _, .one e => e.encoded
  | _, .cons e others => e.encoded ++ others.encoded
  | _, .element _ _ e => e.encoded
  | _, .semantic _ _ => []
  | _, .operand _ primary suffix => primary.encoded ++ suffix.encoded
  | _, .literal body _ => [.literal body]
  | _, .charClass _ => []
  | _, .anyChar => []
  | _, .reference _ => []
  | _, .group choice => choice.encoded
  | _, .bare => []
  | _, .optional => []
  | _, .star => []
  | _, .plus => []
  | _, .range bounds => bounds.encoded
  | _, .separated bounds delimiter => bounds.encoded ++ delimiter.encoded

/-- The bodies of the string literals in a phrase. -/
def Phrase.literalBodies : {k : Kind} → Phrase k → List Text
  | _, .last a => a.literalBodies
  | _, .or a others => a.literalBodies ++ others.literalBodies
  | _, .alternative es _ => es.literalBodies
  | _, .one e => e.literalBodies
  | _, .cons e others => e.literalBodies ++ others.literalBodies
  | _, .element _ _ e => e.literalBodies
  | _, .semantic _ _ => []
  | _, .operand _ primary suffix => primary.literalBodies ++ suffix.literalBodies
  | _, .literal body _ => [body]
  | _, .charClass _ => []
  | _, .anyChar => []
  | _, .reference _ => []
  | _, .group choice => choice.literalBodies
  | _, .bare => []
  | _, .optional => []
  | _, .star => []
  | _, .plus => []
  | _, .range _ => []
  | _, .separated _ delimiter => delimiter.literalBodies

theorem Bounds.filterMap_literal? (bounds : Bounds) :
    bounds.encoded.filterMap Encoded.literal? = [] := by
  rw [encoded, List.filterMap_map]
  exact List.filterMap_eq_nil_iff.mpr fun _ _ => rfl

theorem Phrase.filterMap_literal? {k : Kind} (p : Phrase k) :
    p.encoded.filterMap Encoded.literal? = p.literalBodies := by
  induction p with
  | range bounds => exact bounds.filterMap_literal?
  | separated bounds delimiter ih =>
    rw [encoded, List.filterMap_append, bounds.filterMap_literal?, ih, List.nil_append]
    rfl
  | _ => simp_all [encoded, literalBodies, Encoded.literal?]

/-- Lowering a phrase fails with what the first of its literals and bounds fails with. -/
theorem Phrase.errorOf?_lower {k : Kind} (p : Phrase k) :
    errorOf? p.lower = p.encoded.findSome? Encoded.error? := by
  induction p with
  | last a ih => exact errorOf?_bind_pure.trans ih
  | or a others iha iho =>
    rw [encoded, List.findSome?_append, ← iha, ← iho]
    exact errorOf?_bind_bind_pure
  | alternative es action ih => exact errorOf?_bind_pure.trans ih
  | one e ih => exact errorOf?_bind_pure.trans ih
  | cons e others ihe iho =>
    rw [encoded, List.findSome?_append, ← ihe, ← iho]
    exact errorOf?_bind_bind_pure
  | element pluck label e ih => exact errorOf?_bind_pure.trans ih
  | operand sign primary suffix ihp ihs =>
    rw [encoded, List.findSome?_append, ← ihp, ← ihs]
    exact errorOf?_bind_bind_pure
  | literal body ignoreCase =>
    rw [encoded, List.findSome?_singleton]
    exact errorOf?_bind_pure
  | group choice ih => exact errorOf?_bind_pure.trans ih
  | range bounds => exact errorOf?_bind_pure.trans bounds.errorOf?_guaranteed
  | separated bounds delimiter ih =>
    rw [encoded, List.findSome?_append, ← bounds.errorOf?_guaranteed, ← ih]
    exact errorOf?_bind_bind_pure
  | _ => rfl

/-- A phrase can be lowered where its literals and bounds can be decoded. -/
theorem Phrase.exists_lower_iff {k : Kind} (p : Phrase k) :
    (∃ l, p.lower = .ok l) ↔ ∀ x ∈ p.encoded, x.error? = none := by
  rw [← errorOf?_eq_none_iff, p.errorOf?_lower, List.findSome?_eq_none_iff]

/-! ## Rules -/

/-- The literals and bounds in a rule, its display name first. -/
def Rule.encoded (rule : Rule) : List Encoded :=
  rule.displayName.toList.map .literal ++ rule.body.encoded

/-- The bodies of the string literals in a rule, its display name among them. -/
def Rule.literalBodies (rule : Rule) : List Text :=
  rule.displayName.toList ++ rule.body.literalBodies

/-- The digits of the bounds in a rule. -/
def Rule.numerals (rule : Rule) : List Text := rule.encoded.filterMap Encoded.numeral?

theorem Rule.filterMap_literal? (rule : Rule) :
    rule.encoded.filterMap Encoded.literal? = rule.literalBodies := by
  rw [encoded, List.filterMap_append, List.filterMap_map, rule.body.filterMap_literal?]
  exact congrArg (· ++ _) List.filterMap_some

/-- Lowering a rule fails with what the first of its literals and bounds fails with. -/
theorem Rule.errorOf?_lower (rule : Rule) :
    errorOf? rule.lower = rule.encoded.findSome? Encoded.error? := by
  have hname : errorOf? (rule.displayName.mapM decodeLiteral) =
      rule.displayName.toList.findSome? (Encoded.error? ∘ .literal) :=
    errorOf?_mapM rule.displayName
  rw [encoded, List.findSome?_append, List.findSome?_map, ← hname, ← rule.body.errorOf?_lower]
  exact errorOf?_bind_bind_pure

/-- Nothing fails in a rule whose literals can be decoded and whose bounds have few digits. -/
theorem Rule.forall_encoded_iff (rule : Rule) :
    (∀ x ∈ rule.encoded, x.error? = none) ↔
      (∀ body ∈ rule.literalBodies, body.Decodable) ∧
        ∀ digits ∈ rule.numerals, digits.length ≤ Numeral.maxDigits := by
  simp only [← rule.filterMap_literal?, numerals, List.mem_filterMap, Encoded.error?_eq_none_iff]
  constructor
  · intro h
    constructor
    · rintro body ⟨x, hx, hbody⟩
      exact (h x hx).1 body hbody
    · rintro digits ⟨x, hx, hdigits⟩
      exact (h x hx).2 digits hdigits
  · rintro ⟨hbodies, hnumerals⟩ x hx
    exact ⟨fun body hbody => hbodies body ⟨x, hx, hbody⟩,
      fun digits hdigits => hnumerals digits ⟨x, hx, hdigits⟩⟩

/-- Lowering rules fails with what the first of all their literals and bounds fails with. -/
theorem errorOf?_mapM_lower (rules : List Rule) :
    errorOf? (rules.mapM Rule.lower) =
      (rules.flatMap Rule.encoded).findSome? Encoded.error? := by
  induction rules with
  | nil => rfl
  | cons rule rules ih =>
    rw [List.mapM_cons, List.flatMap_cons, List.findSome?_append, ← rule.errorOf?_lower, ← ih]
    exact errorOf?_bind_bind_pure

/-- Rules can be lowered where the literals in each can be decoded and no bound has too many
digits. -/
theorem exists_mapM_lower_iff (rules : List Rule) :
    (∃ rs, rules.mapM Rule.lower = .ok rs) ↔
      ∀ rule ∈ rules, (∀ body ∈ rule.literalBodies, body.Decodable) ∧
        ∀ digits ∈ rule.numerals, digits.length ≤ Numeral.maxDigits := by
  simp only [← errorOf?_eq_none_iff, errorOf?_mapM_lower, List.findSome?_eq_none_iff,
    List.forall_mem_flatMap, Rule.forall_encoded_iff]

/-- Where all literals can be decoded, only a bound with too many digits is in the way. -/
theorem eq_numeral_of_mapM_lower {rules : List Rule} {e : DecodingError}
    (h : rules.mapM Rule.lower = .error e)
    (hdecodable : ∀ rule ∈ rules, ∀ body ∈ rule.literalBodies, body.Decodable) : e = .numeral := by
  rw [← errorOf?_eq_some_iff, errorOf?_mapM_lower] at h
  obtain ⟨x, hx, hxe⟩ := List.exists_of_findSome?_eq_some h
  obtain ⟨rule, hrule, hx⟩ := List.mem_flatMap.mp hx
  cases x with
  | literal body =>
    have hbody : body ∈ rule.literalBodies := by
      rw [← rule.filterMap_literal?]
      exact List.mem_filterMap.mpr ⟨_, hx, rfl⟩
    rw [Encoded.error?_literal_eq_none_iff.mpr (hdecodable rule hrule body hbody)] at hxe
    cases hxe
  | numeral digits =>
    rw [Encoded.error?_numeral] at hxe
    split at hxe
    · cases hxe
    · exact (Option.some.inj hxe).symm

end Source

end RuleTypes
