import RuleTypes.Expr.Typing
import RuleTypes.Proofs.Expr.Nodes
import RuleTypes.Proofs.Source.Lowering

/-!
# Plucked elements of a sequence

A sequence of two elements or more has the type of its one plucked element, and the fallback type
otherwise. Which elements count as plucked is decided after lowering, where an element that is
nothing but parentheses around a single plucked element has become that element.

* `Phrase.lowersToPluck`: the elements that count.
* `Phrase.isPlucked_of_lower`: they are those that lower to a plucked part.
* `sequence_type_of_parse`: the type of every sequence of a source, and when it is the one that the
  sequence's own plucks ask for.
* `sequence_type_group_pluck`: a source where it is not.
-/

namespace RuleTypes

/-! ## The type of a sequence -/

namespace Expr

/-- Whether an expression is a plucked part. -/
def isPlucked : Expr → Bool
  | capture _ _ true => true
  | _ => false

theorem pluckedTypes_eq_map (fallback : Text) (es : List Expr) :
    pluckedTypes fallback es = (es.filter isPlucked).map (valueType fallback) := by
  induction es with
  | nil => rfl
  | cons e es ih =>
    cases e with
    | capture e label pluck =>
      cases pluck with
      | false => exact ih
      | true =>
        rw [List.filter_cons_of_pos rfl, List.map_cons, ← ih]
        rfl
    | _ => exact ih

/-- A sequence has the type of its one plucked element, or the fallback type. -/
theorem valueType_sequence (fallback : Text) (es : List Expr) :
    (sequence es).valueType fallback =
      match es.filter isPlucked with
      | [e] => e.valueType fallback
      | _ => .raw fallback := by
  rw [valueType, pluckedTypes_eq_map]
  rcases es.filter isPlucked with _ | ⟨e, _ | ⟨e', es'⟩⟩ <;> rfl

/-- A choice of two alternatives or more is no plucked part. -/
theorem isPlucked_ofAlternatives {es : List Expr} (h2 : 2 ≤ es.length) :
    (ofAlternatives es).isPlucked = false := by
  rcases ofAlternatives_cases es with ⟨e, rfl, -⟩ | ⟨values, -, -, he⟩ | ⟨-, -, he⟩
  · rw [List.length_singleton] at h2
    omega
  · rw [he]; rfl
  · rw [he]; rfl

theorem isPlucked_ofElements {es : List Expr} (h2 : 2 ≤ es.length) :
    (ofElements es).isPlucked = false := by
  rw [ofElements_sequence h2]
  rfl

/-- Merging literals hides no sequence. -/
theorem mem_preorder_ofAlternatives {es es' : List Expr} (h : sequence es' ∈ preorders es) :
    sequence es' ∈ (ofAlternatives es).preorder := by
  rcases ofAlternatives_cases es with ⟨e, rfl, he⟩ | ⟨values, rfl, -, -⟩ | ⟨-, -, he⟩
  · obtain ⟨e', he', h⟩ := mem_preorders_iff.mp h
    rw [he, ← List.mem_singleton.mp he']
    exact h
  · obtain ⟨e, he, h⟩ := mem_preorders_iff.mp h
    obtain ⟨vs, -, rfl⟩ := List.mem_map.mp he
    cases List.mem_singleton.mp h
  · rw [he]
    exact List.mem_cons_of_mem _ h

theorem mem_preorder_ofElements {es : List Expr} {n : Expr} (h : n ∈ preorders es) :
    n ∈ (ofElements es).preorder := by
  rcases ofElements_cases es with ⟨e, rfl, he⟩ | ⟨-, he⟩
  · obtain ⟨e', he', h⟩ := mem_preorders_iff.mp h
    rw [he, ← List.mem_singleton.mp he']
    exact h
  · rw [he]
    exact List.mem_cons_of_mem _ h

end Expr

/-! ## Plucked elements as written -/

namespace Source

namespace Phrase

/-- The elements of a sequence. Other phrases have none. -/
def elements : {k : Kind} → Phrase k → List (Phrase .element)
  | _, .one e => [e]
  | _, .cons e others => e :: others.elements
  | _, _ => []

/-- Whether an element has an `@` of its own. -/
def isPlucked : Phrase .element → Bool
  | .element pluck _ _ => pluck

/-- Whether a phrase lowers to a plucked part: an element with an `@`, or parentheses around nothing
but such an element, with no label, sign, suffix or action. -/
def lowersToPluck : {k : Kind} → Phrase k → Bool
  | _, .last a => a.lowersToPluck
  | _, .alternative es none => es.lowersToPluck
  | _, .one e => e.lowersToPluck
  | _, .element pluck label e => pluck || (label.isNone && e.lowersToPluck)
  | _, .operand none primary .bare => primary.lowersToPluck
  | _, .group choice => choice.lowersToPluck
  | _, _ => false

/-- The type of the operand of an element. -/
def operandType? (fallback : Text) : Phrase .element → Option TsType
  | .element _ _ a => a.lower.toOption.map (Expr.valueType fallback)

/-- The type of a sequence of which the elements with `plucked` are plucked: that of the operand of
the only one, or the fallback type. -/
def sequenceType? (fallback : Text) (plucked : Phrase .element → Bool) (s : Phrase .sequence) :
    Option TsType :=
  match s.elements.filter plucked with
  | [x] => x.operandType? fallback
  | _ => some (.raw fallback)

/-- The sequences of a phrase, with those inside the delimiters of ranges or without. -/
def sequences (inDelimiters : Bool) : {k : Kind} → Phrase k → List (Phrase .sequence)
  | _, .last a => a.sequences inDelimiters
  | _, .or a others => a.sequences inDelimiters ++ others.sequences inDelimiters
  | _, .alternative es _ => es :: es.sequences inDelimiters
  | _, .one e => e.sequences inDelimiters
  | _, .cons e others => e.sequences inDelimiters ++ others.sequences inDelimiters
  | _, .element _ _ e => e.sequences inDelimiters
  | _, .semantic _ _ => []
  | _, .operand _ primary suffix =>
    primary.sequences inDelimiters ++ suffix.sequences inDelimiters
  | _, .literal _ _ => []
  | _, .charClass _ => []
  | _, .anyChar => []
  | _, .reference _ => []
  | _, .group choice => choice.sequences inDelimiters
  | _, .bare => []
  | _, .optional => []
  | _, .star => []
  | _, .plus => []
  | _, .range _ => []
  | _, .separated _ delimiter => if inDelimiters then delimiter.sequences inDelimiters else []

/-! ## Lowering -/

theorem lower_iff_elements : (s : Phrase .sequence) → (es : List Expr) →
    (s.lower = .ok es ↔
      List.Forall₂ (fun (x : Phrase .element) (e : Expr) => x.lower = .ok e) s.elements es)
  | .one a, es => by
    rw [lower_one, elements, List.forall₂_cons_left_iff]
    constructor
    · rintro ⟨e, he, rfl⟩
      exact ⟨e, [], he, .nil, rfl⟩
    · rintro ⟨e, es', he, hes, rfl⟩
      cases hes
      exact ⟨e, he, rfl⟩
  | .cons a others, es => by
    rw [lower_cons, elements, List.forall₂_cons_left_iff]
    constructor
    · rintro ⟨e, es', he, hes, rfl⟩
      exact ⟨e, es', he, (lower_iff_elements others es').mp hes, rfl⟩
    · rintro ⟨e, es', he, hes, rfl⟩
      exact ⟨e, es', he, (lower_iff_elements others es').mpr hes, rfl⟩

theorem length_of_lower {s : Phrase .sequence} {es : List Expr} (h : s.lower = .ok es) :
    es.length = s.elements.length :=
  ((lower_iff_elements s es).mp h).length_eq.symm

theorem length_elements_pos : (s : Phrase .sequence) → 0 < s.elements.length
  | .one _ => Nat.zero_lt_one
  | .cons _ _ => Nat.succ_pos _

end Phrase

/-- Whether what a phrase lowers to becomes a plucked part. A suffix becomes no part. -/
def PlucksAs : {k : Kind} → Lowered k → Bool → Prop
  | .choice, es, b => (Expr.ofAlternatives es).isPlucked = b
  | .alternative, e, b => e.isPlucked = b
  | .sequence, es, b => (Expr.ofElements es).isPlucked = b
  | .element, e, b => e.isPlucked = b
  | .operand, e, b => e.isPlucked = b
  | .primary, e, b => e.isPlucked = b
  | .suffix, _, _ => True

namespace Phrase

theorem length_pos_of_lower : (p : Phrase .choice) → (es : List Expr) → p.lower = .ok es →
    0 < es.length
  | .last a, es, h => by
    obtain ⟨e, -, rfl⟩ := lower_last.mp h
    exact Nat.zero_lt_one
  | .or a others, es, h => by
    obtain ⟨e, es', -, -, rfl⟩ := lower_or.mp h
    exact Nat.succ_pos _

/-- A phrase lowers to a plucked part where it has an `@` that counts. -/
theorem plucksAs_of_lower {k : Kind} (p : Phrase k) :
    ∀ v, p.lower = .ok v → PlucksAs v p.lowersToPluck := by
  induction p with
  | last a ih =>
    intro es h
    obtain ⟨e, he, rfl⟩ := lower_last.mp h
    exact ih e he
  | or a others iha iho =>
    intro es h
    obtain ⟨e, es', -, hes, rfl⟩ := lower_or.mp h
    have hpos := length_pos_of_lower others es' hes
    exact Expr.isPlucked_ofAlternatives (by rw [List.length_cons]; omega)
  | alternative s action ih =>
    intro e h
    obtain ⟨es, hes, rfl⟩ := lower_alternative.mp h
    cases action with
    | none => exact ih es hes
    | some code => rfl
  | one a ih =>
    intro es h
    obtain ⟨e, he, rfl⟩ := lower_one.mp h
    exact ih e he
  | cons a others iha iho =>
    intro es h
    obtain ⟨e, es', -, hes, rfl⟩ := lower_cons.mp h
    have hpos := length_elements_pos others
    rw [← length_of_lower hes] at hpos
    exact Expr.isPlucked_ofElements (by rw [List.length_cons]; omega)
  | element pluck label a ih =>
    intro e h
    obtain ⟨e', he, rfl⟩ := lower_element.mp h
    have hp : e'.isPlucked = a.lowersToPluck := ih e' he
    cases pluck with
    | true => rfl
    | false =>
      cases label with
      | none => exact hp
      | some label => rfl
  | semantic negated code =>
    intro e h
    obtain rfl := lower_semantic.mp h
    rfl
  | operand sign primary suffix ihp ihs =>
    intro e h
    obtain ⟨e', wrap, hp, hs, rfl⟩ := lower_operand.mp h
    cases sign with
    | some sign => cases sign <;> rfl
    | none =>
      cases suffix with
      | bare =>
        obtain rfl := lower_bare.mp hs
        exact ihp e' hp
      | optional => obtain rfl := lower_optional.mp hs; rfl
      | star => obtain rfl := lower_star.mp hs; rfl
      | plus => obtain rfl := lower_plus.mp hs; rfl
      | range bounds => obtain ⟨guaranteed, -, rfl⟩ := lower_range.mp hs; rfl
      | separated bounds delimiter => obtain ⟨guaranteed, es, -, -, rfl⟩ := lower_separated.mp hs; rfl
  | literal body ignoreCase =>
    intro e h
    obtain ⟨v, -, rfl⟩ := lower_literal.mp h
    rfl
  | charClass pattern =>
    intro e h
    obtain rfl := lower_charClass.mp h
    rfl
  | anyChar =>
    intro e h
    obtain rfl := lower_anyChar.mp h
    rfl
  | reference rule =>
    intro e h
    obtain rfl := lower_reference.mp h
    rfl
  | group choice ih =>
    intro e h
    obtain ⟨es, hes, rfl⟩ := lower_group.mp h
    exact ih es hes
  | _ => intro f h; trivial

theorem isPlucked_of_lower {x : Phrase .element} {e : Expr} (h : x.lower = .ok e) :
    e.isPlucked = x.lowersToPluck :=
  plucksAs_of_lower x e h

/-- An element has the type of its operand. -/
theorem operandType?_of_lower {fallback : Text} : {x : Phrase .element} → {e : Expr} →
    x.lower = .ok e → x.operandType? fallback = some (e.valueType fallback)
  | .element pluck label a, e, h => by
    obtain ⟨e', he, rfl⟩ := lower_element.mp h
    rw [operandType?, he]
    split <;> rfl

/-- An element with an `@` of its own counts as plucked. -/
theorem lowersToPluck_of_isPlucked : {x : Phrase .element} → x.isPlucked = true →
    x.lowersToPluck = true
  | .element true _ _, _ => rfl

/-- The elements that lower to a plucked part, next to what they lower to. -/
theorem forall₂_filter {xs : List (Phrase .element)} {es : List Expr}
    (h : List.Forall₂ (fun (x : Phrase .element) (e : Expr) => x.lower = .ok e) xs es) :
    List.Forall₂ (fun (x : Phrase .element) (e : Expr) => x.lower = .ok e)
      (xs.filter lowersToPluck) (es.filter Expr.isPlucked) := by
  induction h with
  | nil => exact .nil
  | @cons x e xs es hx _ ih =>
    have hp := isPlucked_of_lower hx
    cases hb : x.lowersToPluck with
    | true =>
      rw [List.filter_cons_of_pos hb, List.filter_cons_of_pos (hp.trans hb)]
      exact .cons hx ih
    | false =>
      rw [List.filter_cons_of_neg (by simp [hb]), List.filter_cons_of_neg (by simp [hp, hb])]
      exact ih

/-- A sequence has the type of the one element that counts as plucked. -/
theorem valueType_sequence_of_lower {s : Phrase .sequence} {es : List Expr} (h : s.lower = .ok es)
    (fallback : Text) :
    some ((Expr.sequence es).valueType fallback) = s.sequenceType? fallback lowersToPluck := by
  rw [Expr.valueType_sequence, sequenceType?]
  have hfilter := forall₂_filter ((lower_iff_elements s es).mp h)
  generalize s.elements.filter lowersToPluck = xs at hfilter ⊢
  generalize es.filter Expr.isPlucked = plucked at hfilter ⊢
  cases hfilter with
  | nil => rfl
  | cons hx hrest =>
    cases hrest with
    | nil => exact (operandType?_of_lower hx).symm
    | cons _ _ => rfl

end Phrase

/-! ## Where sequences end up -/

/-- Whether an expression is a node of what a phrase lowers to. A suffix has no nodes. -/
def HasNode : {k : Kind} → Lowered k → Expr → Prop
  | .choice, es, n => n ∈ Expr.preorders es
  | .alternative, e, n => n ∈ e.preorder
  | .sequence, es, n => n ∈ Expr.preorders es
  | .element, e, n => n ∈ e.preorder
  | .operand, e, n => n ∈ e.preorder
  | .primary, e, n => n ∈ e.preorder
  | .suffix, _, _ => False

theorem Sign.mem_preorder_apply {sign : Option Sign} {e n : Expr} (h : n ∈ e.preorder) :
    n ∈ (Sign.apply sign e).preorder := by
  cases sign with
  | none => exact h
  | some sign => cases sign <;> exact List.mem_cons_of_mem _ h

namespace Phrase

/-- A suffix keeps the nodes of its operand. -/
theorem mem_preorder_of_suffix {suffix : Phrase .suffix} {wrap : Expr → Expr}
    (h : suffix.lower = .ok wrap) {e n : Expr} (hn : n ∈ e.preorder) : n ∈ (wrap e).preorder := by
  cases suffix with
  | bare => obtain rfl := lower_bare.mp h; exact hn
  | optional => obtain rfl := lower_optional.mp h; exact List.mem_cons_of_mem _ hn
  | star => obtain rfl := lower_star.mp h; exact List.mem_cons_of_mem _ hn
  | plus => obtain rfl := lower_plus.mp h; exact List.mem_cons_of_mem _ hn
  | range bounds => obtain ⟨guaranteed, -, rfl⟩ := lower_range.mp h; exact List.mem_cons_of_mem _ hn
  | separated bounds delimiter =>
    obtain ⟨guaranteed, es, -, -, rfl⟩ := lower_separated.mp h
    exact List.mem_cons_of_mem _ hn

/-- A phrase that lowers has only sequences that lower. -/
theorem exists_lower_of_mem_sequences {k : Kind} (p : Phrase k) {b : Bool} {s : Phrase .sequence} :
    ∀ v, p.lower = .ok v → s ∈ p.sequences b → ∃ es, s.lower = .ok es := by
  induction p with
  | last a ih =>
    intro es h hs
    obtain ⟨e, he, rfl⟩ := lower_last.mp h
    exact ih e he hs
  | or a others iha iho =>
    intro es h hs
    obtain ⟨e, es', he, hes, rfl⟩ := lower_or.mp h
    rcases List.mem_append.mp hs with hs | hs
    · exact iha e he hs
    · exact iho es' hes hs
  | alternative s' action ih =>
    intro e h hs
    obtain ⟨es, hes, rfl⟩ := lower_alternative.mp h
    rcases List.mem_cons.mp hs with rfl | hs
    · exact ⟨es, hes⟩
    · exact ih es hes hs
  | one a ih =>
    intro es h hs
    obtain ⟨e, he, rfl⟩ := lower_one.mp h
    exact ih e he hs
  | cons a others iha iho =>
    intro es h hs
    obtain ⟨e, es', he, hes, rfl⟩ := lower_cons.mp h
    rcases List.mem_append.mp hs with hs | hs
    · exact iha e he hs
    · exact iho es' hes hs
  | element pluck label a ih =>
    intro e h hs
    obtain ⟨e', he, rfl⟩ := lower_element.mp h
    exact ih e' he hs
  | operand sign primary suffix ihp ihs =>
    intro e h hs
    obtain ⟨e', wrap, hp, hw, rfl⟩ := lower_operand.mp h
    rcases List.mem_append.mp hs with hs | hs
    · exact ihp e' hp hs
    · exact ihs wrap hw hs
  | group choice ih =>
    intro e h hs
    obtain ⟨es, hes, rfl⟩ := lower_group.mp h
    exact ih es hes hs
  | separated bounds delimiter ih =>
    intro f h hs
    obtain ⟨guaranteed, es, -, hes, rfl⟩ := lower_separated.mp h
    cases b with
    | true => exact ih es hes hs
    | false => cases hs
  | _ => intro v h hs; cases hs

/-- What a sequence of two elements or more lowers to is a node of the whole, unless it stands in
a delimiter. -/
theorem hasNode_of_mem_sequences {k : Kind} (p : Phrase k) {s : Phrase .sequence}
    {es : List Expr} (hes : s.lower = .ok es) (h2 : 2 ≤ s.elements.length) :
    ∀ v, p.lower = .ok v → s ∈ p.sequences false → HasNode v (.sequence es) := by
  induction p with
  | last a ih =>
    intro vs h hs
    obtain ⟨e, he, rfl⟩ := lower_last.mp h
    exact List.mem_append_left _ (ih e he hs)
  | or a others iha iho =>
    intro vs h hs
    obtain ⟨e, vs', he, hvs, rfl⟩ := lower_or.mp h
    rcases List.mem_append.mp hs with hs | hs
    · exact List.mem_append_left _ (iha e he hs)
    · exact List.mem_append_right _ (iho vs' hvs hs)
  | alternative s' action ih =>
    intro e h hs
    obtain ⟨vs, hvs, rfl⟩ := lower_alternative.mp h
    have hmem : Expr.sequence es ∈ (Expr.ofElements vs).preorder := by
      rcases List.mem_cons.mp hs with rfl | hs
      · obtain rfl := Except.ok.inj (hes.symm.trans hvs)
        rw [Expr.ofElements_sequence (length_of_lower hes ▸ h2)]
        exact List.mem_cons_self
      · exact Expr.mem_preorder_ofElements (ih vs hvs hs)
    cases action with
    | none => exact hmem
    | some code => exact List.mem_cons_of_mem _ hmem
  | one a ih =>
    intro vs h hs
    obtain ⟨e, he, rfl⟩ := lower_one.mp h
    exact List.mem_append_left _ (ih e he hs)
  | cons a others iha iho =>
    intro vs h hs
    obtain ⟨e, vs', he, hvs, rfl⟩ := lower_cons.mp h
    rcases List.mem_append.mp hs with hs | hs
    · exact List.mem_append_left _ (iha e he hs)
    · exact List.mem_append_right _ (iho vs' hvs hs)
  | element pluck label a ih =>
    intro e h hs
    obtain ⟨e', he, rfl⟩ := lower_element.mp h
    split
    · exact List.mem_cons_of_mem _ (ih e' he hs)
    · exact ih e' he hs
  | operand sign primary suffix ihp ihs =>
    intro e h hs
    obtain ⟨e', wrap, hp, hw, rfl⟩ := lower_operand.mp h
    rcases List.mem_append.mp hs with hs | hs
    · exact Sign.mem_preorder_apply (mem_preorder_of_suffix hw (ihp e' hp hs))
    · exact (ihs wrap hw hs).elim
  | group choice ih =>
    intro e h hs
    obtain ⟨vs, hvs, rfl⟩ := lower_group.mp h
    exact Expr.mem_preorder_ofAlternatives (ih vs hvs hs)
  | _ => intro v h hs; cases hs

/-! ## The type that the plucks of a sequence ask for -/

/-- The elements with an `@` of their own are among those that count. -/
theorem filter_isPlucked_sublist (s : Phrase .sequence) :
    (s.elements.filter isPlucked).Sublist (s.elements.filter lowersToPluck) :=
  List.monotone_filter_right _ fun _ h => lowersToPluck_of_isPlucked h

/-- Whether what counts as plucked in a sequence leaves its type the one that its own plucks ask
for: either both have exactly one element or neither does, or the one element there is has the
fallback type anyway. -/
def KeepsPluckType (fallback : Text) (s : Phrase .sequence) : Prop :=
  ((s.elements.filter isPlucked).length = 1 ↔ (s.elements.filter lowersToPluck).length = 1) ∨
    ∀ x, s.elements.filter isPlucked = [x] ∨ s.elements.filter lowersToPluck = [x] →
      x.operandType? fallback = some (.raw fallback)

theorem sequenceType?_of_singleton {fallback : Text} {plucked : Phrase .element → Bool}
    {s : Phrase .sequence} {x : Phrase .element} (h : s.elements.filter plucked = [x]) :
    s.sequenceType? fallback plucked = x.operandType? fallback := by
  rw [sequenceType?, h]

theorem sequenceType?_of_length_ne {fallback : Text} {plucked : Phrase .element → Bool}
    {s : Phrase .sequence} (h : (s.elements.filter plucked).length ≠ 1) :
    s.sequenceType? fallback plucked = some (.raw fallback) := by
  rw [sequenceType?]
  split
  · next x hx => exact absurd (congrArg List.length hx) h
  · rfl

/-- The type of a sequence is the one that its own plucks ask for exactly where its type is kept. -/
theorem sequenceType?_eq_iff {fallback : Text} {s : Phrase .sequence} :
    s.sequenceType? fallback isPlucked = s.sequenceType? fallback lowersToPluck ↔
      s.KeepsPluckType fallback := by
  have hsub := filter_isPlucked_sublist s
  by_cases hown : (s.elements.filter isPlucked).length = 1
  · obtain ⟨x, hx⟩ := List.length_eq_one_iff.mp hown
    rw [sequenceType?_of_singleton hx]
    by_cases hall : (s.elements.filter lowersToPluck).length = 1
    · have heq := hsub.eq_of_length (hown.trans hall.symm)
      rw [sequenceType?_of_singleton (heq ▸ hx)]
      exact ⟨fun _ => .inl (iff_of_true hown hall), fun _ => rfl⟩
    · rw [sequenceType?_of_length_ne hall]
      constructor
      · rintro h
        refine .inr fun y hy => ?_
        rcases hy with hy | hy
        · obtain rfl := List.singleton_inj.mp (hx.symm.trans hy)
          exact h
        · exact absurd (congrArg List.length hy) hall
      · rintro (h | h)
        · exact absurd (h.mp hown) hall
        · exact h x (.inl hx)
  · rw [sequenceType?_of_length_ne hown]
    by_cases hall : (s.elements.filter lowersToPluck).length = 1
    · obtain ⟨x, hx⟩ := List.length_eq_one_iff.mp hall
      rw [sequenceType?_of_singleton hx]
      constructor
      · rintro h
        refine .inr fun y hy => ?_
        rcases hy with hy | hy
        · exact absurd (congrArg List.length hy) hown
        · obtain rfl := List.singleton_inj.mp (hx.symm.trans hy)
          exact h.symm
      · rintro (h | h)
        · exact absurd (h.mpr hall) hown
        · exact (h x (.inr hx)).symm
    · rw [sequenceType?_of_length_ne hall]
      exact ⟨fun _ => .inl (iff_of_false hown hall), fun _ => rfl⟩

end Phrase
end Source

/-! ## The sequences of a parsed grammar -/

/-- The rule that a written rule has become. -/
theorem exists_rule_of_lower {written : List Source.Rule} {rules : List Rule}
    (h : List.Forall₂ (fun w rule => Source.Rule.lower w = .ok { rule with start := false })
      written rules) {w : Source.Rule} (hw : w ∈ written) :
    ∃ rule ∈ rules, ∃ es, w.body.lower = .ok es ∧ rule.name = w.name ∧
      rule.body = Expr.ofAlternatives es := by
  induction h with
  | nil => cases hw
  | @cons w' rule written rules hl _ ih =>
    rcases List.mem_cons.mp hw with rfl | hw
    · obtain ⟨displayName, es, -, hes, hr⟩ := Source.Rule.lower_eq_ok.mp hl
      injection hr with hname hbody
      exact ⟨rule, List.mem_cons_self, es, hes, hname.symm, hbody.symm⟩
    · obtain ⟨rule', hmem, hrest⟩ := ih hw
      exact ⟨rule', List.mem_cons_of_mem _ hmem, hrest⟩

/-- **The type of a sequence.** Every sequence of two elements or more in a source has the type of
the one element that counts as plucked, or the fallback type where there is no such element or more
than one. That is the type its own plucks ask for exactly where `KeepsPluckType` holds. -/
theorem sequence_type_of_parse {source : Text} {startRules : List Text} {g : Grammar}
    (h : Grammar.parse source startRules = .ok g) (fallback : Text) :
    ∃ written, Source.readRules source = .ok written ∧
      ∀ w ∈ written, ∀ s ∈ w.body.sequences true, 2 ≤ s.elements.length →
        ∃ es, s.lower = .ok es ∧
          (s ∈ w.body.sequences false →
            ∃ rule ∈ g.rules, rule.name = w.name ∧ Expr.sequence es ∈ rule.body.preorder) ∧
          some ((Expr.sequence es).valueType fallback) =
            s.sequenceType? fallback Source.Phrase.lowersToPluck ∧
          (some ((Expr.sequence es).valueType fallback) =
            s.sequenceType? fallback Source.Phrase.isPlucked ↔ s.KeepsPluckType fallback) := by
  obtain ⟨written, hread, hl⟩ := Grammar.parse_spec h
  refine ⟨written, hread, fun w hw s hs h2 => ?_⟩
  obtain ⟨rule, hrule, alternatives, hlower, hname, hbody⟩ := exists_rule_of_lower hl hw
  obtain ⟨es, hes⟩ := w.body.exists_lower_of_mem_sequences alternatives hlower hs
  have htype := Source.Phrase.valueType_sequence_of_lower hes fallback
  refine ⟨es, hes, fun hkept => ?_, htype, ?_⟩
  · refine ⟨rule, hrule, hname, ?_⟩
    rw [hbody]
    exact Expr.mem_preorder_ofAlternatives
      (w.body.hasNode_of_mem_sequences hes h2 alternatives hlower hkept)
  · rw [htype, eq_comm]
    exact Source.Phrase.sequenceType?_eq_iff

/-- The first of two elements is plucked, and the sequence has its type. -/
theorem sequence_type_of_parse_plucked :
    ∃ written, Source.readRules "a=@.." = .ok written ∧
      ∀ w ∈ written, ∀ s ∈ w.body.sequences true, 2 ≤ s.elements.length →
        ∃ es, s.lower = .ok es ∧
          (s ∈ w.body.sequences false →
            ∃ rule ∈
                [(⟨"a", .sequence [.capture .anyChar none true, .anyChar], false, none⟩ : Rule)],
              rule.name = w.name ∧ Expr.sequence es ∈ rule.body.preorder) ∧
          some ((Expr.sequence es).valueType "string[]") =
            s.sequenceType? "string[]" Source.Phrase.lowersToPluck ∧
          (some ((Expr.sequence es).valueType "string[]") =
            s.sequenceType? "string[]" Source.Phrase.isPlucked ↔ s.KeepsPluckType "string[]") :=
  sequence_type_of_parse
    (show Grammar.parse "a=@.." [] = .ok ⟨[⟨"a", _, false, none⟩], by decide⟩ from rfl) "string[]"

/-- An `@` alone in a group counts for the sequence around it: neither of the two elements has an
`@` of its own, and the sequence has the type of the first. -/
theorem sequence_type_group_pluck :
    ∃ g written, Grammar.parse "a=(@.)." [] = .ok g ∧
      Source.readRules "a=(@.)." = .ok written ∧
      ∃ w ∈ written, ∃ s ∈ w.body.sequences false,
        s.elements.length = 2 ∧ s.elements.filter Source.Phrase.isPlucked = [] ∧
        ∃ es, s.lower = .ok es ∧ (∃ rule ∈ g.rules, rule.body = .sequence es) ∧
          (Expr.sequence es).valueType "string[]" = .string ∧
          s.sequenceType? "string[]" Source.Phrase.isPlucked = some (.raw "string[]") := by
  refine ⟨⟨[⟨"a", .sequence [.capture .anyChar none true, .anyChar], false, none⟩], by decide⟩,
    [⟨"a", none, .last (.alternative
      (.cons (.element false none (.operand none (.group (.last (.alternative
          (.one (.element true none (.operand none .anyChar .bare))) none))) .bare))
        (.one (.element false none (.operand none .anyChar .bare)))) none)⟩],
    rfl, rfl, _, List.mem_singleton_self _, _, List.mem_cons_self, rfl, rfl, _, rfl,
    ⟨_, List.mem_singleton_self _, rfl⟩, rfl, ?_⟩
  exact Source.Phrase.sequenceType?_of_length_ne Nat.zero_ne_one

end RuleTypes
