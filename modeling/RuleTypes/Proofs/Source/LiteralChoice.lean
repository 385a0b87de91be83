import RuleTypes.Proofs.Source.Decoding
import RuleTypes.Proofs.Source.Pluck
import RuleTypes.Proofs.TsType.Join

/-!
# Choices of literals

A choice between case-sensitive literals, with parentheses at any depth, becomes one set: the texts
of the literals in order of first occurrence. Repeats go out group by group and once more around the
groups, which is the same as once for all. The set has the type that the choice would have had, so
merging changes no type. A choice with any other alternative is not merged.

* `Phrase.onlyLiterals`: whether a phrase is made of case-sensitive literals alone.
* `Phrase.mergesInto_of_lower`: what such a phrase lowers to, and that no other lowers to a set.
* `valueType_ofAlternatives_literals`: merging sets of literals keeps the type.
* `literal_choices_of_parse`: the choices of a source.
-/

namespace RuleTypes

/-! ## Types of literal sets -/

namespace Expr

open TsType

variable {sets : List (List Text)}

/-- Sets of literals that are not empty may be put together before their type is read off. -/
theorem join_valueTypes_literals (fallback : Text) (h : ∀ values ∈ sets, values ≠ []) :
    (choice (sets.map (literals · false))).valueType fallback =
      join (sets.flatten.map literal) := by
  have hgroups : ∀ ts ∈ sets.map (List.map literal), ts ≠ [] ∧ ∀ t ∈ ts, t.Flat := by
    refine List.forall_mem_map.mpr fun values hvalues => ⟨by simpa using h values hvalues, ?_⟩
    exact List.forall_mem_map.mpr fun _ _ => trivial
  have htypes : valueTypes fallback (sets.map (literals · false)) =
      (sets.map (List.map literal)).map join := by
    rw [valueTypes_eq_map, List.map_map, List.map_map]
    rfl
  rw [valueType, htypes, join_map_join hgroups, List.map_flatten]

/-- Repeats among literals do not show in their type. -/
theorem join_map_literal_distinct (values : List Text) :
    join ((distinct values).map literal) = join (values.map literal) := by
  have hparts (values : List Text) : (values.map literal).flatMap parts = values.map literal := by
    rw [List.flatMap_map]
    exact List.flatMap_pure_eq_map ..
  have hinjective : Function.Injective literal := fun v w h => by injection h
  rw [join, join, hparts, hparts, ← distinct_map hinjective, distinct_of_nodup (nodup_distinct _)]

/-- The set of all literals of some sets has the type of the choice between them. -/
theorem valueType_literals_of_firstOccurrences (fallback : Text)
    (h : ∀ values ∈ sets, values ≠ []) {merged : List Text}
    (hmerged : FirstOccurrences sets.flatten merged) :
    (literals merged false).valueType fallback =
      (choice (sets.map (literals · false))).valueType fallback := by
  rw [hmerged.unique (firstOccurrences_distinct _), join_valueTypes_literals fallback h]
  exact join_map_literal_distinct _

/-- Merging keeps the type of a choice between sets of literals. -/
theorem valueType_ofAlternatives_literals (fallback : Text) (h : ∀ values ∈ sets, values ≠ []) :
    ∃ merged, ofAlternatives (sets.map (literals · false)) = literals merged false ∧
      (literals merged false).valueType fallback =
        (choice (sets.map (literals · false))).valueType fallback := by
  obtain ⟨merged, hmerged, rfl | rfl⟩ := exists_ofAlternatives_sets sets
  · refine ⟨merged, hmerged, ?_⟩
    rw [join_valueTypes_literals fallback h, List.flatten_singleton]
    rfl
  · exact ⟨_, hmerged, valueType_literals_of_firstOccurrences fallback h
      (firstOccurrences_distinct _)⟩

/-- With an alternative that is no set of case-sensitive literals, a choice is none either. -/
theorem literalValues?_ofAlternatives {es : List Expr} (h : ∃ e ∈ es, e.literalValues? = none) :
    (ofAlternatives es).literalValues? = none := by
  rcases ofAlternatives_cases es with ⟨e, rfl, he⟩ | ⟨sets, rfl, -, -⟩ | ⟨-, -, he⟩
  · obtain ⟨e', hmem, hnone⟩ := h
    rw [he, ← List.mem_singleton.mp hmem, hnone]
  · obtain ⟨e, hmem, hnone⟩ := h
    obtain ⟨values, -, rfl⟩ := List.mem_map.mp hmem
    cases hnone
  · rw [he]
    rfl

end Expr

/-! ## Choices as written -/

namespace Source

namespace Phrase

/-- The alternatives of a choice. Other phrases have none. -/
def alternatives : {k : Kind} → Phrase k → List (Phrase .alternative)
  | _, .last a => [a]
  | _, .or a others => a :: others.alternatives
  | _, _ => []

/-- Whether a phrase is made of case-sensitive literals, choices and parentheses alone. -/
def onlyLiterals : {k : Kind} → Phrase k → Bool
  | _, .last a => a.onlyLiterals
  | _, .or a others => a.onlyLiterals && others.onlyLiterals
  | _, .alternative es none => es.onlyLiterals
  | _, .one e => e.onlyLiterals
  | _, .element false none e => e.onlyLiterals
  | _, .operand none primary .bare => primary.onlyLiterals
  | _, .literal _ false => true
  | _, .group choice => choice.onlyLiterals
  | _, _ => false

/-- The choices inside a phrase, in parentheses or as delimiters of ranges. -/
def choices : {k : Kind} → Phrase k → List (Phrase .choice)
  | _, .last a => a.choices
  | _, .or a others => a.choices ++ others.choices
  | _, .alternative es _ => es.choices
  | _, .one e => e.choices
  | _, .cons e others => e.choices ++ others.choices
  | _, .element _ _ e => e.choices
  | _, .semantic _ _ => []
  | _, .operand _ primary suffix => primary.choices ++ suffix.choices
  | _, .literal _ _ => []
  | _, .charClass _ => []
  | _, .anyChar => []
  | _, .reference _ => []
  | _, .group choice => choice :: choice.choices
  | _, .bare => []
  | _, .optional => []
  | _, .star => []
  | _, .plus => []
  | _, .range _ => []
  | _, .separated _ delimiter => delimiter :: delimiter.choices

/-- What a whole choice becomes, as the body of a rule or in parentheses. -/
def lowerChoice (c : Phrase .choice) : Except DecodingError Expr := do
  return Expr.ofAlternatives (← c.lower)

theorem lowerChoice_eq_ok {c : Phrase .choice} {e : Expr} :
    c.lowerChoice = .ok e ↔ ∃ es, c.lower = .ok es ∧ Expr.ofAlternatives es = e :=
  bind_pure_eq_ok

theorem lower_iff_alternatives : (c : Phrase .choice) → (es : List Expr) →
    (c.lower = .ok es ↔
      List.Forall₂ (fun (a : Phrase .alternative) (e : Expr) => a.lower = .ok e) c.alternatives es)
  | .last a, es => by
    rw [lower_last, alternatives, List.forall₂_cons_left_iff]
    constructor
    · rintro ⟨e, he, rfl⟩
      exact ⟨e, [], he, .nil, rfl⟩
    · rintro ⟨e, es', he, hes, rfl⟩
      cases hes
      exact ⟨e, he, rfl⟩
  | .or a others, es => by
    rw [lower_or, alternatives, List.forall₂_cons_left_iff]
    constructor
    · rintro ⟨e, es', he, hes, rfl⟩
      exact ⟨e, es', he, (lower_iff_alternatives others es').mp hes, rfl⟩
    · rintro ⟨e, es', he, hes, rfl⟩
      exact ⟨e, es', he, (lower_iff_alternatives others es').mpr hes, rfl⟩

theorem onlyLiterals_eq_all : (c : Phrase .choice) →
    c.onlyLiterals = c.alternatives.all fun a => a.onlyLiterals
  | .last a => (Bool.and_true _).symm
  | .or a others => by
    rw [onlyLiterals, alternatives, List.all_cons, onlyLiterals_eq_all others]

/-- The literals and bounds in a choice inside a phrase are literals and bounds in the phrase. -/
theorem encoded_subset_of_mem_choices {k : Kind} (p : Phrase k) {c : Phrase .choice}
    (hc : c ∈ p.choices) : c.encoded ⊆ p.encoded := by
  induction p with
  | last a ih => exact ih hc
  | or a others iha iho =>
    rcases List.mem_append.mp hc with hc | hc
    · exact List.subset_append_of_subset_left _ (iha hc)
    · exact List.subset_append_of_subset_right _ (iho hc)
  | alternative es action ih => exact ih hc
  | one e ih => exact ih hc
  | cons e others ihe iho =>
    rcases List.mem_append.mp hc with hc | hc
    · exact List.subset_append_of_subset_left _ (ihe hc)
    · exact List.subset_append_of_subset_right _ (iho hc)
  | element pluck label e ih => exact ih hc
  | operand sign primary suffix ihp ihs =>
    rcases List.mem_append.mp hc with hc | hc
    · exact List.subset_append_of_subset_left _ (ihp hc)
    · exact List.subset_append_of_subset_right _ (ihs hc)
  | group choice ih =>
    rcases List.mem_cons.mp hc with rfl | hc
    · exact List.Subset.refl _
    · exact ih hc
  | separated bounds delimiter ih =>
    rcases List.mem_cons.mp hc with rfl | hc
    · exact List.subset_append_right _ _
    · exact List.subset_append_of_subset_right _ (ih hc)
  | _ => cases hc

/-- Where there are literals alone there are no bounds. -/
theorem encoded_of_onlyLiterals {k : Kind} {p : Phrase k} (h : p.onlyLiterals = true) :
    p.encoded = p.literalBodies.map .literal := by
  fun_induction onlyLiterals p with
  | case1 a ih => exact ih h
  | case2 a others iha iho =>
    rw [Bool.and_eq_true] at h
    rw [encoded, literalBodies, List.map_append, iha h.1, iho h.2]
  | case3 es ih => exact ih h
  | case4 e ih => exact ih h
  | case5 e ih => exact ih h
  | case6 primary ih =>
    rw [encoded, literalBodies, List.map_append, ih h]
    rfl
  | case7 body => rfl
  | case8 choice ih => exact ih h
  | case9 => cases h

end Phrase

/-! ## Merging -/

/-- Whether an expression is the set of the literals with these bodies, in order of first
occurrence, if there are `only` literals, and no set of case-sensitive literals otherwise. -/
structure MergesAs (only : Bool) (bodies : List Text) (e : Expr) : Prop where
  merged : only = true → ∃ values, bodies.mapM unescape = .ok values ∧
    e = .literals (distinct values) false
  unmerged : only = false → e.literalValues? = none

/-- Whether alternatives are sets of the literals with these bodies, one behind the other, if there
are `only` literals, and one of them is no such set otherwise. -/
structure AlternativesMerge (only : Bool) (bodies : List Text) (es : List Expr) : Prop where
  merged : only = true → ∃ sets : List (List Text), bodies.mapM unescape = .ok sets.flatten ∧
    es = sets.map fun values => .literals (distinct values) false
  unmerged : only = false → ∃ e ∈ es, e.literalValues? = none

/-- What is known of the merging of literals in a phrase. A suffix becomes no expression. -/
def MergesInto : {k : Kind} → Phrase k → Lowered k → Prop
  | .choice, c, es => AlternativesMerge c.onlyLiterals c.literalBodies es
  | .alternative, p, e => MergesAs p.onlyLiterals p.literalBodies e
  | .sequence, p, es => MergesAs p.onlyLiterals p.literalBodies (Expr.ofElements es)
  | .element, p, e => MergesAs p.onlyLiterals p.literalBodies e
  | .operand, p, e => MergesAs p.onlyLiterals p.literalBodies e
  | .primary, p, e => MergesAs p.onlyLiterals p.literalBodies e
  | .suffix, _, _ => True

/-- What is no set of literals must not come from literals alone. -/
theorem MergesAs.of_none {bodies : List Text} {e : Expr} (he : e.literalValues? = none) :
    MergesAs false bodies e :=
  ⟨fun h => absurd h Bool.false_ne_true, fun _ => he⟩

/-- A choice becomes the set of its literals or stays one. -/
theorem AlternativesMerge.group {only : Bool} {bodies : List Text} {es : List Expr}
    (h : AlternativesMerge only bodies es) : MergesAs only bodies (Expr.ofAlternatives es) := by
  refine ⟨fun honly => ?_, fun hmixed => Expr.literalValues?_ofAlternatives (h.unmerged hmixed)⟩
  obtain ⟨sets, hvalues, rfl⟩ := h.merged honly
  exact ⟨_, hvalues, Expr.ofAlternatives_distinct sets⟩

namespace Phrase

/-- A phrase that lowers is merged where it is made of literals alone, and nowhere else. -/
theorem mergesInto_of_lower {k : Kind} (p : Phrase k) : ∀ v, p.lower = .ok v → MergesInto p v := by
  induction p with
  | last a ih =>
    intro es h
    obtain ⟨e, he, rfl⟩ := lower_last.mp h
    have ha : MergesAs _ _ e := ih e he
    refine ⟨fun honly => ?_, fun hmixed => ⟨e, List.mem_singleton_self e, ha.unmerged hmixed⟩⟩
    obtain ⟨values, hvalues, rfl⟩ := ha.merged honly
    exact ⟨[values], by rwa [List.flatten_singleton], rfl⟩
  | or a others iha iho =>
    intro es h
    obtain ⟨e, es', he, hes, rfl⟩ := lower_or.mp h
    have ha : MergesAs _ _ e := iha e he
    have ho : AlternativesMerge _ _ es' := iho es' hes
    constructor
    · intro honly
      obtain ⟨hfirst, hothers⟩ := (Bool.and_eq_true _ _).mp honly
      obtain ⟨values, hvalues, rfl⟩ := ha.merged hfirst
      obtain ⟨sets, hsets, rfl⟩ := ho.merged hothers
      exact ⟨values :: sets, mapM_append_eq_ok hvalues hsets, rfl⟩
    · intro hmixed
      rcases Bool.and_eq_false_iff.mp hmixed with hfirst | hothers
      · exact ⟨e, List.mem_cons_self, ha.unmerged hfirst⟩
      · obtain ⟨e', hmem, hnone⟩ := ho.unmerged hothers
        exact ⟨e', List.mem_cons_of_mem _ hmem, hnone⟩
  | alternative s action ih =>
    intro e h
    obtain ⟨es, hes, rfl⟩ := lower_alternative.mp h
    cases action with
    | none => exact ih es hes
    | some code => exact .of_none rfl
  | one a ih =>
    intro es h
    obtain ⟨e, he, rfl⟩ := lower_one.mp h
    exact ih e he
  | cons a others iha iho =>
    intro es h
    obtain ⟨e, es', -, hes, rfl⟩ := lower_cons.mp h
    have hpos := length_elements_pos others
    rw [← length_of_lower hes] at hpos
    refine .of_none ?_
    rw [Expr.ofElements_sequence (by rw [List.length_cons]; omega)]
    rfl
  | element pluck label a ih =>
    intro e h
    obtain ⟨e', he, rfl⟩ := lower_element.mp h
    cases pluck with
    | true => exact .of_none rfl
    | false =>
      cases label with
      | none => exact ih e' he
      | some label => exact .of_none rfl
  | semantic negated code =>
    intro e h
    obtain rfl := lower_semantic.mp h
    exact .of_none rfl
  | operand sign primary suffix ihp ihs =>
    intro e h
    obtain ⟨e', wrap, hp, hs, rfl⟩ := lower_operand.mp h
    cases sign with
    | some sign => cases sign <;> exact .of_none rfl
    | none =>
      cases suffix with
      | bare =>
        obtain rfl := lower_bare.mp hs
        have hprimary : MergesAs _ _ e' := ihp e' hp
        rwa [← List.append_nil primary.literalBodies] at hprimary
      | optional => obtain rfl := lower_optional.mp hs; exact .of_none rfl
      | star => obtain rfl := lower_star.mp hs; exact .of_none rfl
      | plus => obtain rfl := lower_plus.mp hs; exact .of_none rfl
      | range bounds => obtain ⟨guaranteed, -, rfl⟩ := lower_range.mp hs; exact .of_none rfl
      | separated bounds delimiter =>
        obtain ⟨guaranteed, es, -, -, rfl⟩ := lower_separated.mp hs
        exact .of_none rfl
  | literal body ignoreCase =>
    intro e h
    obtain ⟨v, hv, rfl⟩ := lower_literal.mp h
    cases ignoreCase with
    | true => exact .of_none rfl
    | false =>
      refine ⟨fun _ => ⟨[v], ?_, rfl⟩, fun hmixed => absurd hmixed.symm Bool.false_ne_true⟩
      exact mapM_eq_ok.mpr (.cons hv .nil)
  | charClass pattern =>
    intro e h
    obtain rfl := lower_charClass.mp h
    exact .of_none rfl
  | anyChar =>
    intro e h
    obtain rfl := lower_anyChar.mp h
    exact .of_none rfl
  | reference rule =>
    intro e h
    obtain rfl := lower_reference.mp h
    exact .of_none rfl
  | group choice ih =>
    intro e h
    obtain ⟨es, hes, rfl⟩ := lower_group.mp h
    exact AlternativesMerge.group (ih es hes)
  | _ => intro f h; trivial

/-- The choices inside a phrase that lowers can be lowered. -/
theorem exists_lower_of_mem_choices {k : Kind} {p : Phrase k} {c : Phrase .choice}
    (hc : c ∈ p.choices) (h : ∃ v, p.lower = .ok v) : ∃ es, c.lower = .ok es := by
  rw [exists_lower_iff] at h ⊢
  exact fun x hx => h x (encoded_subset_of_mem_choices p hc hx)

/-- A choice of literals becomes the set of them, in whatever way it is put into parentheses. -/
theorem lowerChoice_of_onlyLiterals {c : Phrase .choice} {values : List Text}
    (honly : c.onlyLiterals = true) (hvalues : c.literalBodies.mapM unescape = .ok values) :
    c.lowerChoice = .ok (.literals (distinct values) false) := by
  have hlower : ∃ es, c.lower = .ok es := by
    rw [exists_lower_iff, encoded_of_onlyLiterals honly, List.forall_mem_map]
    intro body hbody
    rw [Encoded.error?_literal_eq_none_iff, ← exists_unescape_iff]
    exact exists_of_mem_of_mapM hvalues hbody
  obtain ⟨es, hes⟩ := hlower
  obtain ⟨values', hvalues', he⟩ := (c.mergesInto_of_lower es hes).group.merged honly
  obtain rfl := Except.ok.inj (hvalues.symm.trans hvalues')
  exact lowerChoice_eq_ok.mpr ⟨es, hes, he⟩

/-- A choice with an alternative that is made of anything else is not merged. -/
theorem lowerChoice_of_mixed {c : Phrase .choice} {es : List Expr} (h : c.lower = .ok es)
    (hmixed : ∃ a ∈ c.alternatives, a.onlyLiterals = false) :
    (∃ e, es = [e] ∧ c.lowerChoice = .ok e) ∨
      2 ≤ es.length ∧ c.lowerChoice = .ok (.choice es) := by
  have honly : c.onlyLiterals = false := by
    rw [onlyLiterals_eq_all, List.all_eq_false]
    simpa using hmixed
  have hnone := (c.mergesInto_of_lower es h).unmerged honly
  have hpos := length_pos_of_lower c es h
  by_cases hone : es.length = 1
  · obtain ⟨e, rfl⟩ := List.length_eq_one_iff.mp hone
    exact .inl ⟨e, rfl, lowerChoice_eq_ok.mpr ⟨_, h, rfl⟩⟩
  · have h2 : 2 ≤ es.length := by omega
    exact .inr ⟨h2, lowerChoice_eq_ok.mpr ⟨es, h, Expr.ofAlternatives_choice h2 hnone⟩⟩

end Phrase

end Source

/-! ## The choices of a source -/

/-- **Merging literal choices.** In a parsed source every choice that is made of case-sensitive
literals alone, however it is put into parentheses, is one set of their texts in order of first
occurrence; a choice with any other alternative has its alternatives as they are. Merging sets of
literals changes no type. -/
theorem literal_choices_of_parse {source : Text} {startRules : List Text} {g : Grammar}
    (h : Grammar.parse source startRules = .ok g) (fallback : Text) :
    (∃ written, Source.readRules source = .ok written ∧ ∀ w ∈ written,
      (∃ rule ∈ g.rules, rule.name = w.name ∧ w.body.lowerChoice = .ok rule.body) ∧
      ∀ c ∈ w.body :: w.body.choices,
        (c.onlyLiterals = true → ∃ values merged, c.literalBodies.mapM unescape = .ok values ∧
          FirstOccurrences values merged ∧ c.lowerChoice = .ok (.literals merged false) ∧
          ∀ c' : Source.Phrase .choice, c'.onlyLiterals = true →
            c'.literalBodies.mapM unescape = .ok values →
              c'.lowerChoice = .ok (.literals merged false)) ∧
        ((∃ a ∈ c.alternatives, a.onlyLiterals = false) →
          ∃ es, List.Forall₂ (fun (a : Source.Phrase .alternative) (e : Expr) => a.lower = .ok e)
              c.alternatives es ∧
            ((∃ e, es = [e] ∧ c.lowerChoice = .ok e) ∨
              2 ≤ es.length ∧ c.lowerChoice = .ok (.choice es)))) ∧
    ∀ sets : List (List Text), (∀ values ∈ sets, values ≠ []) →
      (∃ merged, Expr.ofAlternatives (sets.map (.literals · false)) = .literals merged false ∧
        (Expr.literals merged false).valueType fallback =
          (Expr.choice (sets.map (.literals · false))).valueType fallback) ∧
      ∀ merged, FirstOccurrences sets.flatten merged →
        (Expr.literals merged false).valueType fallback =
          (Expr.choice (sets.map (.literals · false))).valueType fallback := by
  refine ⟨?_, fun sets hsets => ⟨Expr.valueType_ofAlternatives_literals fallback hsets,
    fun merged => Expr.valueType_literals_of_firstOccurrences fallback hsets⟩⟩
  obtain ⟨written, hread, hl⟩ := Grammar.parse_spec h
  refine ⟨written, hread, fun w hw => ?_⟩
  obtain ⟨rule, hrule, alternatives, hlower, hname, hbody⟩ := exists_rule_of_lower hl hw
  refine ⟨⟨rule, hrule, hname, Source.Phrase.lowerChoice_eq_ok.mpr ⟨_, hlower, hbody.symm⟩⟩, ?_⟩
  intro c hc
  have hlowers : ∃ es, c.lower = .ok es := by
    rcases List.mem_cons.mp hc with rfl | hc
    · exact ⟨alternatives, hlower⟩
    · exact Source.Phrase.exists_lower_of_mem_choices hc ⟨alternatives, hlower⟩
  obtain ⟨es, hes⟩ := hlowers
  refine ⟨fun honly => ?_, fun hmixed => ⟨es, (c.lower_iff_alternatives es).mp hes,
    Source.Phrase.lowerChoice_of_mixed hes hmixed⟩⟩
  obtain ⟨values, hvalues, -⟩ := (c.mergesInto_of_lower es hes).group.merged honly
  refine ⟨values, distinct values, hvalues, firstOccurrences_distinct values,
    Source.Phrase.lowerChoice_of_onlyLiterals honly hvalues, fun c' honly' hvalues' => ?_⟩
  exact Source.Phrase.lowerChoice_of_onlyLiterals honly' hvalues'

/-- A group and a literal behind it that repeats one of the group in another spelling, and a choice
with a literal of any case. -/
theorem literal_choices_of_parse_nested :
    let literal (body : Text) (ignoreCase : Bool) : Source.Phrase .alternative :=
      .alternative (.one (.element false none
        (.operand none (.literal body ignoreCase) .bare))) none
    let group : Source.Phrase .alternative := .alternative (.one (.element false none
      (.operand none (.group (.or (literal "x" false) (.last (literal "y" false)))) .bare))) none
    let merged : Source.Phrase .choice := .or group (.last (literal "\\x78" false))
    let mixed : Source.Phrase .choice := .or (literal "x" false) (.last (literal "y" true))
    Source.readRules "a=(\"x\"/\"y\")/\"\\x78\" b=\"x\"/\"y\"i" =
        .ok [⟨"a", none, merged⟩, ⟨"b", none, mixed⟩] ∧
      merged.onlyLiterals = true ∧ merged.lowerChoice = .ok (.literals ["x", "y"] false) ∧
      (∃ a ∈ mixed.alternatives, a.onlyLiterals = false) ∧
      mixed.lowerChoice = .ok (.choice [.literals ["x"] false, .literals ["y"] true]) ∧
      ∃ values, Expr.ofAlternatives [.literals ["x", "x"] false, .literals ["y", "x"] false] =
          .literals values false ∧
        (Expr.literals values false).valueType "string[]" =
          (Expr.choice [.literals ["x", "x"] false, .literals ["y", "x"] false]).valueType
            "string[]" := by
  intro literal group merged mixed
  have hwritten : Source.readRules "a=(\"x\"/\"y\")/\"\\x78\" b=\"x\"/\"y\"i" =
      .ok [⟨"a", none, merged⟩, ⟨"b", none, mixed⟩] := rfl
  have honly : merged.onlyLiterals = true := rfl
  have hmixed : ∃ a ∈ mixed.alternatives, a.onlyLiterals = false :=
    ⟨literal "y" true, by simp [mixed, Source.Phrase.alternatives], rfl⟩
  have hparse : Grammar.parse "a=(\"x\"/\"y\")/\"\\x78\" b=\"x\"/\"y\"i" [] =
      .ok ⟨[⟨"a", .literals ["x", "y"] false, false, none⟩,
        ⟨"b", .choice [.literals ["x"] false, .literals ["y"] true], false, none⟩], by decide⟩ := by
    with_unfolding_all rfl
  obtain ⟨⟨written, hread, hchoices⟩, htypes⟩ := literal_choices_of_parse hparse "string[]"
  obtain rfl := Except.ok.inj (hread.symm.trans hwritten)
  obtain ⟨-, ha⟩ := hchoices ⟨"a", none, merged⟩ List.mem_cons_self
  obtain ⟨-, hb⟩ := hchoices ⟨"b", none, mixed⟩ (List.mem_cons_of_mem _ List.mem_cons_self)
  obtain ⟨values, firsts, hvalues, hfirsts, hmerged, -⟩ := (ha merged List.mem_cons_self).1 honly
  obtain ⟨es, hes, hb⟩ := (hb mixed List.mem_cons_self).2 hmixed
  refine ⟨hwritten, honly, ?_, hmixed, ?_, (htypes [["x", "x"], ["y", "x"]] (by simp)).1⟩
  · have hdecoded : merged.literalBodies.mapM unescape = .ok ["x", "y", "x"] := by
      with_unfolding_all rfl
    obtain rfl := Except.ok.inj (hvalues.symm.trans hdecoded)
    obtain rfl : firsts = ["x", "y"] := hfirsts.unique (firstOccurrences_distinct _)
    exact hmerged
  · have hlower : mixed.lower = .ok [.literals ["x"] false, .literals ["y"] true] := by
      with_unfolding_all rfl
    obtain rfl := Except.ok.inj (((mixed.lower_iff_alternatives es).mpr hes).symm.trans hlower)
    rcases hb with ⟨e, hone, -⟩ | ⟨-, hb⟩
    · cases hone
    · exact hb

end RuleTypes
