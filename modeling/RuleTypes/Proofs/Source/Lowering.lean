import Mathlib.Data.List.Forall2
import RuleTypes.Proofs.Distinct
import RuleTypes.Source.Reading

/-!
# What a parsed source is made of

Lowering decodes and simplifies the written phrases; it succeeds where the lowering of every part
does. The `lower_*` statements say so, one for each way to write a phrase, so that no proof about
lowering has to open it.

* `Expr.ofAlternatives_cases`, `Expr.ofElements_cases`: what a choice and a sequence become.
* `Phrase.lower_*`: a phrase lowers to a value where its parts lower to parts of that value.
* `Grammar.parse_spec`: the rules of a parsed grammar are the written ones, lowered one by one.
-/

namespace RuleTypes

theorem bind_eq_ok {ε α β : Type} {x : Except ε α} {f : α → Except ε β} {b : β} :
    x >>= f = .ok b ↔ ∃ a, x = .ok a ∧ f a = .ok b := by
  cases x <;> simp [bind, Except.bind]

theorem pure_eq_ok {ε α : Type} {a b : α} : (pure a : Except ε α) = .ok b ↔ a = b := by
  simp [pure, Except.pure]

theorem bind_pure_eq_ok {ε α β : Type} {x : Except ε α} {f : α → β} {b : β} :
    (do return f (← x)) = .ok b ↔ ∃ a, x = .ok a ∧ f a = b := by
  simp only [bind_eq_ok, pure_eq_ok]

theorem bind_bind_pure_eq_ok {ε α β γ : Type} {x : Except ε α} {y : Except ε β}
    {f : α → β → γ} {c : γ} :
    (do let a ← x; let b ← y; return f a b) = .ok c ↔
      ∃ a b, x = .ok a ∧ y = .ok b ∧ f a b = c := by
  simp only [bind_eq_ok, pure_eq_ok, exists_and_left]

theorem mapError_eq_ok {ε ε' α : Type} {x : Except ε α} {f : ε → ε'} {a : α} :
    x.mapError f = .ok a ↔ x = .ok a := by
  cases x <;> simp [Except.mapError]

/-- A checked map over a list succeeds where it does on every member. -/
theorem mapM_eq_ok {ε α β : Type} {f : α → Except ε β} {as : List α} {bs : List β} :
    as.mapM f = .ok bs ↔ List.Forall₂ (fun a b => f a = .ok b) as bs := by
  induction as generalizing bs with
  | nil => cases bs <;> simp [pure, Except.pure]
  | cons a as ih =>
    rw [List.mapM_cons]
    simp only [bind_eq_ok, ih, pure, Except.pure, Except.ok.injEq, List.forall₂_cons_left_iff]
    constructor
    · rintro ⟨b, hb, bs', hbs, rfl⟩
      exact ⟨b, bs', hb, hbs, rfl⟩
    · rintro ⟨b, bs', hb, hbs, rfl⟩
      exact ⟨b, hb, bs', hbs, rfl⟩

theorem mapM_append_eq_ok {ε α β : Type} {f : α → Except ε β} {as as' : List α} {bs bs' : List β}
    (h : as.mapM f = .ok bs) (h' : as'.mapM f = .ok bs') :
    (as ++ as').mapM f = .ok (bs ++ bs') := by
  rw [mapM_eq_ok] at h h' ⊢
  exact List.rel_append h h'

theorem exists_of_mem_of_mapM {ε α β : Type} {f : α → Except ε β} {as : List α} {bs : List β}
    (h : as.mapM f = .ok bs) {a : α} (ha : a ∈ as) : ∃ b, f a = .ok b := by
  rw [mapM_eq_ok] at h
  induction h with
  | nil => cases ha
  | cons hb _ ih =>
    rcases List.mem_cons.mp ha with rfl | ha
    · exact ⟨_, hb⟩
    · exact ih ha

/-! ## Choices and sequences -/

namespace Expr

theorem literalValues?_eq_some {e : Expr} {values : List Text} :
    e.literalValues? = some values ↔ e = literals values false := by
  unfold literalValues?
  split <;> simp_all

theorem mapM_literalValues?_eq_some {es : List Expr} {values : List (List Text)} :
    es.mapM literalValues? = some values ↔ es = values.map (literals · false) := by
  induction es generalizing values with
  | nil => cases values <;> simp
  | cons e es ih =>
    rw [List.mapM_cons]
    cases values with
    | nil => simp [Option.bind_eq_some_iff]
    | cons vs values => simp [Option.bind_eq_some_iff, literalValues?_eq_some, ih]

/-- A choice of one alternative is that alternative, one of nothing but case-sensitive literals is
one set of literals, and any other stays a choice. -/
theorem ofAlternatives_cases (es : List Expr) :
    (∃ e, es = [e] ∧ ofAlternatives es = e) ∨
      (∃ values : List (List Text), es = values.map (literals · false) ∧ es.length ≠ 1 ∧
        ofAlternatives es = literals (distinct values.flatten) false) ∨
      ((∀ values : List (List Text), es ≠ values.map (literals · false)) ∧ es.length ≠ 1 ∧
        ofAlternatives es = choice es) := by
  unfold ofAlternatives
  split
  · exact .inl ⟨_, rfl, rfl⟩
  · rename_i hone
    have hlength : es.length ≠ 1 := fun h => by
      obtain ⟨e, rfl⟩ := List.length_eq_one_iff.mp h
      exact hone e rfl
    cases h : es.mapM literalValues? with
    | some values => exact .inr (.inl ⟨values, mapM_literalValues?_eq_some.mp h, hlength, rfl⟩)
    | none =>
      refine .inr (.inr ⟨fun values hv => ?_, hlength, rfl⟩)
      rw [mapM_literalValues?_eq_some.mpr hv] at h
      cases h

/-- Sets of literals are merged into one. A set that is the only alternative stays as it is. -/
theorem exists_ofAlternatives_sets (sets : List (List Text)) :
    ∃ merged, ofAlternatives (sets.map (literals · false)) = literals merged false ∧
      (sets = [merged] ∨ merged = distinct sets.flatten) := by
  have hinjective : Function.Injective (literals · false) := fun vs ws h => by injection h
  rcases ofAlternatives_cases (sets.map (literals · false)) with
    ⟨e, he, h⟩ | ⟨sets', hsets, -, h⟩ | ⟨hnone, -, -⟩
  · obtain ⟨values, rfl, rfl⟩ := List.map_eq_singleton_iff.mp he
    exact ⟨values, h, .inl rfl⟩
  · obtain rfl := List.map_injective_iff.mpr hinjective hsets
    exact ⟨_, h, .inr rfl⟩
  · exact absurd rfl (hnone sets)

/-- Repeats may go out of every set before the sets are merged. -/
theorem ofAlternatives_distinct (sets : List (List Text)) :
    ofAlternatives (sets.map fun values => literals (distinct values) false) =
      literals (distinct sets.flatten) false := by
  obtain ⟨merged, hmerged, hcases⟩ := exists_ofAlternatives_sets (sets.map distinct)
  rw [List.map_map] at hmerged
  refine hmerged.trans (congrArg (literals · false) ?_)
  rcases hcases with hone | rfl
  · obtain ⟨values, rfl, rfl⟩ := List.map_eq_singleton_iff.mp hone
    rw [List.flatten_singleton]
  · rw [← List.flatMap_def, distinct_flatMap_distinct fun values => values, List.flatMap_id']

/-- Several literals as alternatives are merged into the set that they came from. -/
theorem ofAlternatives_literals {values : List Text} (hnodup : values.Nodup) :
    ofAlternatives (values.map fun v => literals [v] false) = literals values false := by
  have h := ofAlternatives_distinct (values.map fun v => [v])
  rw [List.map_map, ← List.flatMap_def, List.flatMap_singleton', distinct_of_nodup hnodup] at h
  exact h

/-- A choice that is not made of literals alone stays one. -/
theorem ofAlternatives_choice {es : List Expr} (h2 : 2 ≤ es.length)
    (hmixed : ∃ a ∈ es, a.literalValues? = none) : ofAlternatives es = choice es := by
  rcases ofAlternatives_cases es with ⟨e, rfl, -⟩ | ⟨sets, rfl, -, -⟩ | ⟨-, -, h⟩
  · rw [List.length_singleton] at h2
    omega
  · obtain ⟨a, ha, hnone⟩ := hmixed
    obtain ⟨vs, -, rfl⟩ := List.mem_map.mp ha
    cases hnone
  · exact h

/-- A sequence of one element is that element, and any other stays a sequence. -/
theorem ofElements_cases (es : List Expr) :
    (∃ e, es = [e] ∧ ofElements es = e) ∨ es.length ≠ 1 ∧ ofElements es = sequence es := by
  unfold ofElements
  split
  · exact .inl ⟨_, rfl, rfl⟩
  · rename_i hone
    refine .inr ⟨fun h => ?_, rfl⟩
    obtain ⟨e, rfl⟩ := List.length_eq_one_iff.mp h
    exact hone e rfl

theorem ofElements_sequence {es : List Expr} (h2 : 2 ≤ es.length) :
    ofElements es = sequence es := by
  rcases ofElements_cases es with ⟨e, rfl, -⟩ | ⟨-, h⟩
  · rw [List.length_singleton] at h2
    omega
  · exact h

end Expr

namespace Source

theorem decodeLiteral_eq_ok {body value : Text} :
    decodeLiteral body = .ok value ↔ unescape body = .ok value :=
  mapError_eq_ok

theorem mapM_decodeLiteral_eq_ok {body? value? : Option Text} :
    body?.mapM decodeLiteral = .ok value? ↔ body?.mapM unescape = .ok value? := by
  cases body? with
  | none => simp only [Option.mapM_none, pure_eq_ok]
  | some body =>
    change (do return some (← decodeLiteral body)) = .ok value? ↔
      (do return some (← unescape body)) = .ok value?
    simp only [bind_pure_eq_ok, decodeLiteral_eq_ok]

namespace Phrase

/-! ## Lowering, part by part -/

@[simp] theorem lower_last {a : Phrase .alternative} {es : List Expr} :
    (last a).lower = .ok es ↔ ∃ e, a.lower = .ok e ∧ [e] = es :=
  bind_pure_eq_ok

@[simp] theorem lower_or {a : Phrase .alternative} {others : Phrase .choice} {es : List Expr} :
    (or a others).lower = .ok es ↔
      ∃ e es', a.lower = .ok e ∧ others.lower = .ok es' ∧ e :: es' = es :=
  bind_bind_pure_eq_ok

@[simp] theorem lower_alternative {s : Phrase .sequence} {action : Option Text} {e : Expr} :
    (alternative s action).lower = .ok e ↔
      ∃ es, s.lower = .ok es ∧
        action.elim (Expr.ofElements es) (Expr.action (Expr.ofElements es)) = e :=
  bind_pure_eq_ok

@[simp] theorem lower_one {a : Phrase .element} {es : List Expr} :
    (one a).lower = .ok es ↔ ∃ e, a.lower = .ok e ∧ [e] = es :=
  bind_pure_eq_ok

@[simp] theorem lower_cons {a : Phrase .element} {others : Phrase .sequence} {es : List Expr} :
    (cons a others).lower = .ok es ↔
      ∃ e es', a.lower = .ok e ∧ others.lower = .ok es' ∧ e :: es' = es :=
  bind_bind_pure_eq_ok

@[simp] theorem lower_element {pluck : Bool} {label : Option Text} {a : Phrase .operand}
    {e : Expr} :
    (element pluck label a).lower = .ok e ↔
      ∃ e', a.lower = .ok e' ∧
        (if pluck || label.isSome then .capture e' label pluck else e') = e :=
  bind_pure_eq_ok

@[simp] theorem lower_semantic {negated : Bool} {code : Text} {e : Expr} :
    (semantic negated code).lower = .ok e ↔ .semantic negated (some code) = e :=
  pure_eq_ok

@[simp] theorem lower_operand {sign : Option Sign} {a : Phrase .primary} {s : Phrase .suffix}
    {e : Expr} :
    (operand sign a s).lower = .ok e ↔
      ∃ e' wrap, a.lower = .ok e' ∧ s.lower = .ok wrap ∧ Sign.apply sign (wrap e') = e :=
  bind_bind_pure_eq_ok

@[simp] theorem lower_literal {body : Text} {ignoreCase : Bool} {e : Expr} :
    (literal body ignoreCase).lower = .ok e ↔
      ∃ v, unescape body = .ok v ∧ .literals [v] ignoreCase = e := by
  simp only [← decodeLiteral_eq_ok]
  exact bind_pure_eq_ok

@[simp] theorem lower_charClass {pattern : Text} {e : Expr} :
    (charClass pattern).lower = .ok e ↔ .charClass pattern = e :=
  pure_eq_ok

@[simp] theorem lower_anyChar {e : Expr} : anyChar.lower = .ok e ↔ .anyChar = e :=
  pure_eq_ok

@[simp] theorem lower_reference {rule : Text} {e : Expr} :
    (reference rule).lower = .ok e ↔ .reference rule = e :=
  pure_eq_ok

@[simp] theorem lower_group {c : Phrase .choice} {e : Expr} :
    (group c).lower = .ok e ↔ ∃ es, c.lower = .ok es ∧ Expr.ofAlternatives es = e :=
  bind_pure_eq_ok

@[simp] theorem lower_bare {f : Expr → Expr} : bare.lower = .ok f ↔ id = f :=
  pure_eq_ok

@[simp] theorem lower_optional {f : Expr → Expr} :
    optional.lower = .ok f ↔ Expr.optional = f :=
  pure_eq_ok

@[simp] theorem lower_star {f : Expr → Expr} :
    star.lower = .ok f ↔ (Expr.repetition · false) = f :=
  pure_eq_ok

@[simp] theorem lower_plus {f : Expr → Expr} :
    plus.lower = .ok f ↔ (Expr.repetition · true) = f :=
  pure_eq_ok

@[simp] theorem lower_range {bounds : Bounds} {f : Expr → Expr} :
    (range bounds).lower = .ok f ↔
      ∃ guaranteed, bounds.guaranteed = .ok guaranteed ∧
        (Expr.repetition · (0 < guaranteed)) = f :=
  bind_pure_eq_ok

@[simp] theorem lower_separated {bounds : Bounds} {delimiter : Phrase .choice} {f : Expr → Expr} :
    (separated bounds delimiter).lower = .ok f ↔
      ∃ guaranteed es, bounds.guaranteed = .ok guaranteed ∧ delimiter.lower = .ok es ∧
        (Expr.repetition · (0 < guaranteed)) = f :=
  bind_bind_pure_eq_ok

end Phrase

@[simp] theorem Rule.lower_eq_ok {rule : Rule} {r : RuleTypes.Rule} :
    rule.lower = .ok r ↔
      ∃ displayName es, rule.displayName.mapM unescape = .ok displayName ∧
        rule.body.lower = .ok es ∧
        { name := rule.name, body := Expr.ofAlternatives es, displayName } = r := by
  simp [lower, bind_eq_ok, pure, Except.pure, mapM_decodeLiteral_eq_ok]

end Source

/-! ## Parsing -/

/-- Flagging start rules changes the flags alone. -/
theorem flagStartRules_eq_ok {startRules : List Text} {rules flagged : List Rule}
    (h : flagStartRules startRules rules = .ok flagged) :
    ∃ isStart : Rule → Bool,
      flagged = rules.map fun rule => { rule with start := isStart rule } := by
  unfold flagStartRules at h
  split at h
  · cases h; exact ⟨fun _ => true, rfl⟩
  · split at h
    · cases h
    · cases h; exact ⟨fun rule => decide (rule.name ∈ startRules), rfl⟩

theorem Grammar.ofRules_eq_ok {rules : List Rule} {g : Grammar} :
    Grammar.ofRules rules = .ok g ↔ g.rules = rules := by
  unfold ofRules
  split
  · rename_i name h
    simp only [reduceCtorEq, false_iff]
    rintro rfl
    have hn : firstRepeated? [] (g.rules.map Rule.name) = none :=
      firstRepeated?_eq_none_iff.mpr ⟨g.nodup, by simp⟩
    rw [h] at hn
    cases hn
  · obtain ⟨gr, hg⟩ := g
    simp [eq_comm]

/-- The rules of a parsed grammar are those of its source, lowered one by one and flagged. -/
theorem Grammar.parse_spec {source : Text} {startRules : List Text} {g : Grammar}
    (h : Grammar.parse source startRules = .ok g) :
    ∃ written, Source.readRules source = .ok written ∧
      List.Forall₂ (fun w rule => Source.Rule.lower w = .ok { rule with start := false })
        written g.rules := by
  unfold parse at h
  simp only [bind_eq_ok, mapError_eq_ok, mapM_eq_ok, ofRules_eq_ok] at h
  obtain ⟨written, hw, rules, hl, flagged, hf, rfl⟩ := h
  obtain ⟨isStart, hflag⟩ := flagStartRules_eq_ok hf
  refine ⟨written, hw, ?_⟩
  rw [hflag, List.forall₂_map_right_iff]
  refine hl.imp fun w rule hr => ?_
  obtain ⟨displayName, es, -, -, rfl⟩ := Source.Rule.lower_eq_ok.mp hr
  exact hr

end RuleTypes
