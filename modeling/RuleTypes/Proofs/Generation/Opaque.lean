import RuleTypes.Proofs.Expr.Alike
import RuleTypes.Proofs.Generation.Declared

/-!
# Opaque parts have no effect

Two grammars with the same rules, whose bodies differ in opaque parts only, have the same block. A
resolver of one has the same to say about every rule as a resolver of the other: opaque parts are
neither given texts nor references, and they have no effect on the type of a body.

* `Rule.Alike`, `Grammar.Alike`: rules and grammars that differ in opaque parts only.
* `Grammar.Alike.agree`: their resolvers agree on every rule.
* `generate_of_alike`: their blocks are the same.
-/

namespace RuleTypes

/-- Whether two rules differ in opaque parts only, the display name among them. -/
structure Rule.Alike (rule rule' : Rule) : Prop where
  name : rule.name = rule'.name
  start : rule.start = rule'.start
  body : rule.body.Alike rule'.body

/-- Whether the rules of two grammars differ in opaque parts only, one by one. -/
def Grammar.Alike (g g' : Grammar) : Prop := List.Forall₂ Rule.Alike g.rules g'.rules

/-- The start rules of a grammar are read off the names and flags of its rules. -/
theorem Grammar.startRules_eq (g : Grammar) :
    let flags := g.rules.map fun rule => (rule.name, rule.start)
    g.startRules =
      (if (flags.filter Prod.snd).isEmpty then flags.take 1 else flags.filter Prod.snd).map
        Prod.fst := by
  intro flags
  have hflagged : flags.filter Prod.snd =
      (g.rules.filter Rule.start).map fun rule => (rule.name, rule.start) := by
    simp only [flags, List.filter_map]
    rfl
  simp only [startRules, hflagged, List.isEmpty_map]
  split <;> simp [flags, Function.comp_def]

namespace Grammar.Alike

variable {g g' : Grammar} {o : Overrides} {c : Config}

/-! ## Rules that are found -/

theorem map_flags (h : g.Alike g') :
    (g.rules.map fun rule => (rule.name, rule.start)) =
      g'.rules.map fun rule => (rule.name, rule.start) := by
  rw [← List.forall₂_eq_eq_eq, List.forall₂_map_left_iff, List.forall₂_map_right_iff]
  exact h.imp fun _ _ halike => Prod.ext halike.name halike.start

theorem names_eq (h : g.Alike g') : g.names = g'.names := by
  have hfst (g : Grammar) : g.names = (g.rules.map fun rule => (rule.name, rule.start)).map
      Prod.fst := by
    rw [List.map_map]
    rfl
  rw [hfst g, hfst g', h.map_flags]

theorem startRules_eq (h : g.Alike g') : g.startRules = g'.startRules := by
  rw [g.startRules_eq, g'.startRules_eq, h.map_flags]

/-- The rules of one name are alike. -/
theorem rule? (h : g.Alike g') (name : Text) :
    Option.Rel Rule.Alike (g.rule? name) (g'.rule? name) := by
  unfold Grammar.rule?
  unfold Grammar.Alike at h
  generalize g.rules = rules at h ⊢
  generalize g'.rules = rules' at h ⊢
  induction h with
  | nil => exact .none
  | @cons rule rule' _ _ halike _ ih =>
    rw [List.find?_cons, List.find?_cons, ← halike.name]
    split
    · exact .some halike
    · exact ih

/-- What is the same for alike rules is the same in both grammars. -/
theorem bind_rule?_eq (h : g.Alike g') (name : Text) {α : Type} {f : Rule → Option α}
    (hf : ∀ {rule rule' : Rule}, rule.Alike rule' → f rule = f rule') :
    (g.rule? name).bind f = (g'.rule? name).bind f := by
  have hrel := h.rule? name
  generalize g.rule? name = found at hrel ⊢
  generalize g'.rule? name = found' at hrel ⊢
  cases hrel with
  | none => rfl
  | some halike => exact hf halike

/-! ## Resolvers and blocks -/

/-- The resolvers of alike grammars agree on every rule. -/
theorem agree (h : g.Alike g') (o : Overrides) (c : Config) (name : Text) :
    (g.resolver o c).Agree (g'.resolver o c) name where
  given := by
    change o.explicit? g name = o.explicit? g' name
    rw [Overrides.explicit?, Overrides.explicit?, contains, contains, h.names_eq]
  target := h.bind_rule?_eq name fun halike => halike.body.pureReference?_eq
  bodyType := by
    unfold Resolver.bodyType?
    rw [Option.map_eq_bind, Option.map_eq_bind]
    exact h.bind_rule?_eq name fun halike => congrArg some (halike.body.valueType_eq c.fallback)

theorem namer_eq (h : g.Alike g') (c : Config) : g.namer c = g'.namer c := by
  rw [namer, namer, h.names_eq]

/-- The types of alike grammars are declared alike. -/
theorem declarations_eq (h : g.Alike g') {types types' : List ResolvedType}
    (hnames : types.map ResolvedType.rule = g.names) (hcorrect : ∀ t ∈ types, t.Correct g o c)
    (hnames' : types'.map ResolvedType.rule = g'.names)
    (hcorrect' : ∀ t ∈ types', t.Correct g' o c) (nameOf : Text → Text) :
    types.map (ResolvedType.declaration nameOf) =
      types'.map (ResolvedType.declaration nameOf) := by
  refine List.ext_getElem? fun k => ?_
  cases hk : g.names[k]? with
  | some name =>
    exact getElem?_declarations_eq hnames hcorrect hnames' hcorrect' h.names_eq h.startRules_eq hk
      (fun later _ => h.agree o c later) nameOf
  | none =>
    have hk' := hk
    rw [h.names_eq, ← hnames', List.getElem?_map, Option.map_eq_none_iff] at hk'
    rw [← hnames, List.getElem?_map, Option.map_eq_none_iff] at hk
    rw [List.getElem?_map, List.getElem?_map, hk, hk']

end Grammar.Alike

/-- **Opaque parts never influence the output.** Closed grammars that differ in opaque parts only
have one and the same block. -/
theorem generate_of_alike {g g' : Grammar} (hclosed : g.Closed) (hclosed' : g'.Closed)
    (h : g.Alike g') (o : Overrides) (c : Config) :
    ∃ text, generate g o c = .ok text ∧ generate g' o c = .ok text := by
  obtain ⟨types, htypes, hnames, hcorrect⟩ := resolveTypes_of_closed hclosed o c
  obtain ⟨types', htypes', hnames', hcorrect'⟩ := resolveTypes_of_closed hclosed' o c
  obtain ⟨text, htext, hblock⟩ := generate_of_closed hclosed htypes hcorrect
  obtain ⟨text', htext', hblock'⟩ := generate_of_closed hclosed' htypes' hcorrect'
  rw [← h.namer_eq c, ← h.declarations_eq hnames hcorrect hnames' hcorrect', hblock] at hblock'
  exact ⟨text, htext, htext'.trans (congrArg _ (Option.some.inj hblock').symm)⟩

/-- All kinds of opaque parts at once: references inside them, a condition on what follows in place
of one in code, and a label that is lost behind a pluck. -/
theorem generate_of_alike_references :
    let g : Grammar :=
      ⟨[⟨"a", .choice [.reference "b"], true, none⟩,
        ⟨"b", .choice [.action (.reference "a") "\x7b1\x7d", .text (.reference "b"),
          .sequence [.capture (.repetition (.charClass "[x]") true) (some "l") true,
            .lookahead (.reference "a") false none],
          .literals ["x", "y"] true, .literals ["x"] false], false, some "B"⟩], by decide⟩
    let g' : Grammar :=
      ⟨[⟨"a", .choice [.reference "b"], true, some "A"⟩,
        ⟨"b", .choice [.action .anyChar "\x7b2\x7d", .text .anyChar,
          .sequence [.capture (.repetition (.charClass "[^x]i") false) none true,
            .semantic true (some "\x7b3\x7d")],
          .literals [] true, .literals ["x"] false], false, none⟩], by decide⟩
    let o : Overrides := .ofList [("c", "Date")]
    g.Closed ∧ g'.Closed ∧ g.Alike g' ∧
      ∃ text, generate g o {} = .ok text ∧ generate g' o {} = .ok text := by
  intro g g' o
  have hclosed : g.Closed := by
    simp [g, Grammar.Closed, Grammar.Binds, Grammar.names, Expr.preorder, Expr.preorders]
  have hclosed' : g'.Closed := by
    simp [g', Grammar.Closed, Grammar.Binds, Grammar.names, Expr.preorder, Expr.preorders]
  have halike : g.Alike g' := by
    refine .cons ⟨rfl, rfl, ?_⟩ (.cons ⟨rfl, rfl, ?_⟩ .nil)
    · exact .choice (.cons (.reference _) .nil)
    · refine .choice (.cons (.action _ _ _ _) (.cons (.text _ _) (.cons (.sequence ?_) ?_)))
      · exact .cons (.capture (.repetition (.charClass _ _) _ _) _ _ _)
          (.cons (.condition rfl rfl) .nil)
      · exact .cons (.anyCase _ _) (.cons (.literals _) .nil)
  exact ⟨hclosed, hclosed', halike, generate_of_alike hclosed hclosed' halike o {}⟩

end RuleTypes
