import RuleTypes.Proofs.Source.Kept

/-!
# References of a parsed grammar

Lowering keeps the references of a source, in the order in which they are written, wherever they
stand: in groups, behind signs and labels, under actions and repetitions. Only the delimiter of a
range is dropped, and its references with it.

* `Expr.references_eq_kept`: the references of an expression are the names that it keeps.
* `Phrase.refers_lower`: lowering keeps the references outside delimiters.
* `checkReferences_of_parse`: the check of a parsed grammar fails where one of these names no rule.
* `checkReferences_ignores_delimiter`: it does not see into delimiters.
-/

namespace RuleTypes

namespace Expr

/-- The references of an expression are the names that it keeps. -/
theorem references_eq_kept (e : Expr) : e.references = e.kept.filterMap Kept.reference? := by
  induction e using Expr.induction with
  | step e ih =>
    have hparts : e.children.flatMap references =
        e.children.flatMap fun c => c.kept.filterMap Kept.reference? := List.flatMap_congr ih
    rw [references_eq, kept_eq, List.filterMap_append, List.filterMap_flatMap, hparts]
    -- A reference has no parts, and every other node has code of its own or nothing.
    cases e with
    | lookahead operand negated code => cases code <;> simp [reference?, own?, Kept.reference?]
    | semantic negated code => cases code <;> simp [reference?, own?, Kept.reference?]
    | _ => simp [reference?, own?, children, Kept.reference?]

theorem flatMap_references (es : List Expr) :
    es.flatMap references = (es.flatMap kept).filterMap Kept.reference? := by
  rw [List.filterMap_flatMap]
  exact List.flatMap_congr fun e _ => references_eq_kept e

end Expr

/-! ## References of phrases -/

namespace Source

namespace Phrase

/-- The rule names that are referred to outside the delimiters of ranges, in the order in which
they are written. -/
def keptReferences : {k : Kind} → Phrase k → List Text
  | _, .last a => a.keptReferences
  | _, .or a others => a.keptReferences ++ others.keptReferences
  | _, .alternative es _ => es.keptReferences
  | _, .one e => e.keptReferences
  | _, .cons e others => e.keptReferences ++ others.keptReferences
  | _, .element _ _ e => e.keptReferences
  | _, .semantic _ _ => []
  | _, .operand _ primary suffix => primary.keptReferences ++ suffix.keptReferences
  | _, .literal _ _ => []
  | _, .charClass _ => []
  | _, .anyChar => []
  | _, .reference rule => [rule]
  | _, .group choice => choice.keptReferences
  | _, .bare => []
  | _, .optional => []
  | _, .star => []
  | _, .plus => []
  | _, .range _ => []
  | _, .separated _ _ => []

/-- A suffix keeps nothing. -/
theorem kept_suffix (p : Phrase .suffix) : p.kept = [] ∧ p.keptReferences = [] := by
  cases p <;> exact ⟨rfl, rfl⟩

theorem keptReferences_eq {k : Kind} (p : Phrase k) :
    p.keptReferences = p.kept.filterMap Kept.reference? := by
  induction p with
  | alternative elements action ih =>
    have hcode : (action.map Kept.code).toList.filterMap Kept.reference? = [] := by
      cases action <;> rfl
    rw [keptReferences, kept, List.filterMap_append, hcode, List.append_nil, ih]
  | operand sign primary suffix ihp _ =>
    rw [keptReferences, kept, suffix.kept_suffix.2, List.append_nil, ihp]
  | _ => simp_all [keptReferences, kept, Kept.reference?]

end Phrase

/-- The references of what a phrase lowers to. A suffix adds its own to those of its operand. -/
def Refers : {k : Kind} → Lowered k → List Text → Prop
  | .choice, es, names => es.flatMap Expr.references = names
  | .alternative, e, names => e.references = names
  | .sequence, es, names => es.flatMap Expr.references = names
  | .element, e, names => e.references = names
  | .operand, e, names => e.references = names
  | .primary, e, names => e.references = names
  | .suffix, f, names => ∀ e : Expr, (f e).references = e.references ++ names

/-- Lowering keeps the references outside delimiters. -/
theorem Phrase.refers_lower {k : Kind} (p : Phrase k) (v : Lowered k) (h : p.lower = .ok v) :
    Refers v p.keptReferences := by
  have hkept := p.retains_lower v h
  rw [p.keptReferences_eq]
  cases k with
  | choice => exact (Expr.flatMap_references v).trans (congrArg _ hkept)
  | sequence => exact (Expr.flatMap_references v).trans (congrArg _ hkept)
  | suffix =>
    intro e
    rw [Expr.references_eq_kept, Expr.references_eq_kept, hkept e, p.kept_suffix.1]
    exact (List.append_nil _).symm
  | _ => exact (Expr.references_eq_kept v).trans (congrArg _ hkept)

end Source

/-! ## The check of a parsed grammar -/

/-- A rule has the name that it is written with, and it refers to what is written outside
delimiters. -/
theorem references_of_lower {w : Source.Rule} {rule : Rule}
    (h : Source.Rule.lower w = .ok { rule with start := false }) :
    rule.name = w.name ∧ rule.body.references = w.body.keptReferences := by
  obtain ⟨displayName, es, -, hes, hr⟩ := Source.Rule.lower_eq_ok.mp h
  injection hr with hname hbody
  refine ⟨hname.symm, ?_⟩
  rw [← hbody, Expr.references_eq_kept, Expr.kept_ofAlternatives, ← Expr.flatMap_references]
  exact w.body.refers_lower es hes

/-- The dangling reference of a parsed grammar is the first one of its source outside delimiters. -/
theorem danglingReference?_of_lower {written : List Source.Rule} {rules : List Rule}
    {known : Text → Bool}
    (h : List.Forall₂ (fun w rule => Source.Rule.lower w = .ok { rule with start := false })
      written rules) :
    (rules.findSome? fun rule =>
        (rule.body.references.find? fun target => !known target).map (·, rule.name)) =
      written.findSome? fun w =>
        (w.body.keptReferences.find? fun target => !known target).map (·, w.name) := by
  induction h with
  | nil => rfl
  | @cons w rule written rules hw _ ih =>
    obtain ⟨hname, hrefs⟩ := references_of_lower hw
    rw [List.findSome?_cons, List.findSome?_cons, ih, hrefs, hname]

theorem names_of_lower {written : List Source.Rule} {rules : List Rule}
    (h : List.Forall₂ (fun w rule => Source.Rule.lower w = .ok { rule with start := false })
      written rules) : rules.map Rule.name = written.map Source.Rule.name := by
  induction h with
  | nil => rfl
  | cons hw _ ih =>
    rw [List.map_cons, List.map_cons, ih, (references_of_lower hw).1]

theorem Grammar.checkReferences_eq_error_iff {g : Grammar} :
    (∃ target rule, g.checkReferences = .error (.undefinedRule target rule)) ↔
      g.danglingReference?.isSome = true := by
  unfold checkReferences
  cases h : g.danglingReference? with
  | none => simp
  | some found => simp

/-- **The check of a parsed grammar.** It fails where a rule of the source refers, outside the
delimiters of ranges, to a rule that the source does not define. -/
theorem checkReferences_of_parse {source : Text} {startRules : List Text} {g : Grammar}
    (h : Grammar.parse source startRules = .ok g) :
    ∃ written, Source.readRules source = .ok written ∧
      ((∃ target rule, g.checkReferences = .error (.undefinedRule target rule)) ↔
        ∃ w ∈ written, ∃ target ∈ w.body.keptReferences,
          target ∉ written.map Source.Rule.name) := by
  obtain ⟨written, hw, hl⟩ := Grammar.parse_spec h
  refine ⟨written, hw, ?_⟩
  rw [Grammar.checkReferences_eq_error_iff, Grammar.danglingReference?,
    danglingReference?_of_lower hl]
  simp [List.findSome?_isSome_iff, Grammar.contains, Grammar.names, names_of_lower hl]

/-- The reference to `b` is found: no rule of the source is called so. -/
theorem checkReferences_of_parse_dangling :
    ∃ written, Source.readRules "a=b" = .ok written ∧
      ((∃ target rule, Grammar.checkReferences ⟨[⟨"a", .reference "b", false, none⟩], by decide⟩ =
          .error (.undefinedRule target rule)) ↔
        ∃ w ∈ written, ∃ target ∈ w.body.keptReferences,
          target ∉ written.map Source.Rule.name) :=
  checkReferences_of_parse (show Grammar.parse "a=b" [] = .ok _ from rfl)

/-- A delimiter is not checked: the one of `a` refers to `b`, no rule of the source is called so,
and the check succeeds. -/
theorem checkReferences_ignores_delimiter :
    ∃ g written, Grammar.parse "a=.|1..,b|" [] = .ok g ∧
      Source.readRules "a=.|1..,b|" = .ok written ∧
      (∃ w ∈ written, ∃ target ∈ w.body.references, target ∉ written.map Source.Rule.name) ∧
      g.checkReferences = .ok () := by
  refine ⟨⟨[⟨"a", .repetition .anyChar true, false, none⟩], by decide⟩, _, rfl, rfl, ?_, ?_⟩
  · exact ⟨_, List.mem_singleton_self _, "b", List.mem_singleton_self _, by decide⟩
  · have hr : (Expr.repetition .anyChar true).references = [] :=
      (Expr.references_of_single rfl rfl).trans (Expr.references_eq _)
    simp [Grammar.checkReferences, Grammar.danglingReference?, hr]

end RuleTypes
