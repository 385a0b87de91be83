import RuleTypes.Generation
import RuleTypes.Proofs.Naming.Fresh
import RuleTypes.Proofs.Resolver.Closed

/-!
# What stops the generation of declarations

Nothing but a dangling reference does. In a closed grammar every rule gets a type that can be
written, every rule has an identifier, and so every declaration is written.

* `ResolvedType.Correct`: what is known of every type that is given out.
* `resolveTypes_of_closed`, `generate_of_closed`: what is given out for a closed grammar.
* `generate_or_dangling`: what happens to any grammar.
-/

namespace RuleTypes

/-! ## Writing declarations -/

namespace TsType

theorem renderAll_isSome_of_union {nameOf : Text → Text} {members : List TsType}
    (h : ((union members).render nameOf).isSome = true) :
    (renderAll nameOf members).isSome = true := by
  rw [render] at h
  cases hmembers : renderAll nameOf members with
  | none => rw [hmembers] at h; cases h
  | some texts => rfl

end TsType

theorem Declaration.emit_isSome {nameOf : Text → Text} {d : Declaration}
    (h : (d.type.render nameOf).isSome = true) (e : Emitter) :
    (d.emit nameOf e).isSome = true := by
  obtain ⟨text, htext⟩ := Option.isSome_iff_exists.mp h
  unfold emit
  rw [htext]
  cases htype : d.type with
  | union members =>
    rw [htype] at h
    obtain ⟨texts, htexts⟩ := Option.isSome_iff_exists.mp (TsType.renderAll_isSome_of_union h)
    simp only [htexts, Option.bind_eq_bind, Option.bind_some]
    split <;> rfl
  | _ => rfl

theorem foldlM_emit_isSome {nameOf : Text → Text} {ds : List Declaration}
    (h : ∀ d ∈ ds, (d.type.render nameOf).isSome = true) (e : Emitter) :
    (ds.foldlM (Declaration.emit nameOf) e).isSome = true := by
  induction ds generalizing e with
  | nil => rfl
  | cons d ds ih =>
    obtain ⟨hd, hds⟩ := List.forall_mem_cons.mp h
    obtain ⟨e', he'⟩ := Option.isSome_iff_exists.mp (d.emit_isSome hd e)
    rw [List.foldlM_cons, he']
    exact ih hds e'

/-- A block can be written when every type in it can. -/
theorem renderBlock_isSome {nameOf : Text → Text} {ds : List Declaration} (header : Option Text)
    (h : ∀ d ∈ ds, (d.type.render nameOf).isSome = true) :
    (renderBlock nameOf header ds).isSome = true := by
  obtain ⟨e, he⟩ := Option.isSome_iff_exists.mp (foldlM_emit_isSome h
    ((({} : Emitter).emitRaw (header.getD defaultHeader)).emitRaw banner))
  rw [renderBlock, he]
  rfl

/-! ## Types of closed grammars -/

variable {g : Grammar} {o : Overrides} {c : Config}

/-- A rule is exported when it is flagged, or when no rule is flagged and it is the first. -/
def Grammar.Exports (g : Grammar) (name : Text) : Prop :=
  (∃ rule ∈ g.rules, rule.start = true ∧ rule.name = name) ∨
    ((∀ rule ∈ g.rules, rule.start = false) ∧ g.names.head? = some name)

namespace Grammar

theorem startRules_of_flagged {flagged : Rule} (h : flagged ∈ g.rules)
    (hstart : flagged.start = true) :
    g.startRules = (g.rules.filter Rule.start).map Rule.name := by
  have hne : ¬ (g.rules.filter Rule.start).isEmpty = true := by
    rw [List.isEmpty_iff]
    exact List.ne_nil_of_mem (List.mem_filter.mpr ⟨h, hstart⟩)
  exact congrArg (List.map Rule.name) (if_neg hne)

theorem startRules_of_unflagged (h : ∀ rule ∈ g.rules, rule.start = false) :
    g.startRules = g.names.head?.toList := by
  have hempty : (g.rules.filter Rule.start).isEmpty = true := by
    simpa using h
  have hstart : g.startRules = (g.rules.take 1).map Rule.name :=
    congrArg (List.map Rule.name) (if_pos hempty)
  rw [hstart, names]
  cases g.rules <;> rfl

theorem mem_startRules_iff {name : Text} : name ∈ g.startRules ↔ g.Exports name := by
  unfold Exports
  by_cases hflagged : ∃ rule ∈ g.rules, rule.start = true
  · obtain ⟨flagged, hmem, hstart⟩ := hflagged
    have hsome : ¬ ∀ rule ∈ g.rules, rule.start = false := fun hnone => by
      rw [hnone flagged hmem] at hstart
      cases hstart
    rw [startRules_of_flagged hmem hstart]
    simp [hsome, and_assoc]
  · have hnone : ∀ rule ∈ g.rules, rule.start = false := fun rule hrule =>
      Bool.eq_false_iff.mpr fun hstart => hflagged ⟨rule, hrule, hstart⟩
    have hnever : ¬ ∃ rule ∈ g.rules, rule.start = true ∧ rule.name = name := by
      rintro ⟨rule, hrule, hstart, -⟩
      exact hflagged ⟨rule, hrule, hstart⟩
    rw [startRules_of_unflagged hnone, Option.mem_toList]
    exact ⟨fun h => .inr ⟨hnone, h⟩, fun h => (h.resolve_left hnever).2⟩

end Grammar

namespace Overrides

/-- A rule of the grammar is explicit when the overrides have its name. -/
theorem isExplicit_iff {name : Text} (h : name ∈ g.names) :
    o.isExplicit g name = true ↔ name ∈ o.keys := by
  rw [isExplicit, explicit?, if_pos (Grammar.contains_iff.mpr h), ← Dictionary.contains_iff]
  rfl

theorem explicit?_eq {name : Text} (h : name ∈ g.names) : o.explicit? g name = o.get? name :=
  if_pos (Grammar.contains_iff.mpr h)

end Overrides

/-- What is known of the type that is given out for a rule of a grammar. -/
structure ResolvedType.Correct (g : Grammar) (o : Overrides) (c : Config) (t : ResolvedType) :
    Prop where
  mem : t.rule ∈ g.names
  answer : (g.resolver o c).Answer t.rule (.ok t.type)
  explicit : t.explicit = true ↔ t.rule ∈ o.keys
  exported : t.exported = true ↔ g.Exports t.rule

/-- The type of an explicit rule is its text. -/
theorem ResolvedType.Correct.type_eq {t : ResolvedType} (h : t.Correct g o c) {text : Text}
    (htext : o.get? t.rule = some text) : t.type = .raw text :=
  h.answer.of_given ((Overrides.explicit?_eq h.mem).trans htext)

/-- A closed grammar gets one type for every rule, in rule order. -/
theorem resolveTypes_of_closed (hclosed : g.Closed) (o : Overrides) (c : Config) :
    ∃ types, resolveTypes g o c = .ok types ∧ types.map ResolvedType.rule = g.names ∧
      ∀ t ∈ types, t.Correct g o c := by
  have hcheck : g.checkReferences = .ok () := by
    rcases g.checkReferences_spec with ⟨-, h⟩ | ⟨target, rule, hfirst, -⟩
    · exact h
    · exact absurd hclosed hfirst.not_closed
  obtain ⟨types, htypes, hall⟩ := Resolver.resolveAll_ok (r := g.resolver o c) hclosed
  obtain ⟨hlength, hzip⟩ := List.forall₂_iff_zip.mp hall
  refine ⟨(g.names.zip types).map fun pair => ⟨pair.1, pair.2, pair.1 ∈ g.startRules,
    o.isExplicit g pair.1⟩, ?_, ?_, ?_⟩
  · simp only [resolveTypes, hcheck, htypes]
    rfl
  · rw [List.map_map]
    exact List.map_fst_zip (Nat.le_of_eq hlength)
  · intro t ht
    obtain ⟨⟨rule, type⟩, hpair, rfl⟩ := List.mem_map.mp ht
    have hmem : rule ∈ g.names := (List.of_mem_zip hpair).1
    exact ⟨hmem, hzip hpair, Overrides.isExplicit_iff hmem,
      decide_eq_true_iff.trans Grammar.mem_startRules_iff⟩

/-! ## Declarations of closed grammars -/

/-- The declaration of a rule under an identifier. -/
def ResolvedType.declaration (nameOf : Text → Text) (t : ResolvedType) : Declaration :=
  { identifier := nameOf t.rule, type := t.type, exported := t.exported }

theorem ResolvedType.declare_ok {t : ResolvedType} (h : t.rule ∈ g.names) (c : Config) :
    t.declare (g.namer c) = .ok (t.declaration (g.namer c).nameOf) := by
  unfold declare Grammar.namer
  rw [Namer.get?_ofRules h]
  rfl

/-- Every type that is given out for a rule of the grammar is declared. -/
theorem ResolvedType.mapM_declare_ok {types : List ResolvedType}
    (hcorrect : ∀ t ∈ types, t.Correct g o c) :
    types.mapM (declare (g.namer c)) = .ok (types.map (declaration (g.namer c).nameOf)) := by
  rw [mapM_eq_ok, List.forall₂_map_right_iff, List.forall₂_same]
  exact fun t ht => declare_ok (hcorrect t ht).mem c

/-- The block of a closed grammar is that of its types, which is written. -/
theorem generate_of_closed (hclosed : g.Closed) {types : List ResolvedType}
    (htypes : resolveTypes g o c = .ok types) (hcorrect : ∀ t ∈ types, t.Correct g o c) :
    ∃ text, generate g o c = .ok text ∧
      renderBlock (g.namer c).nameOf c.header
        (types.map (ResolvedType.declaration (g.namer c).nameOf)) = some text := by
  have hdeclare := ResolvedType.mapM_declare_ok hcorrect
  have hwritten : ∀ d ∈ types.map (ResolvedType.declaration (g.namer c).nameOf),
      (d.type.render (g.namer c).nameOf).isSome = true := by
    intro d hd
    obtain ⟨t, ht, rfl⟩ := List.mem_map.mp hd
    exact (hcorrect t ht).answer.render_isSome hclosed (hcorrect t ht).mem _
  obtain ⟨text, htext⟩ := Option.isSome_iff_exists.mp (renderBlock_isSome c.header hwritten)
  refine ⟨text, ?_, htext⟩
  rw [generate, htypes]
  simp only [bind, Except.bind, hdeclare, htext]

/-- **Dangling references are all that stops a grammar.** Either one dangles, and the first is
reported; or every rule gets its type and the declarations are written. -/
theorem generate_or_dangling (g : Grammar) (o : Overrides) (c : Config) :
    ((∃ rule ∈ g.rules, ∃ target, .reference target ∈ rule.body.preorder ∧ target ∉ g.names) ∧
      ∃ target rule, g.FirstDangling target rule ∧
        resolveTypes g o c = .error (.error (.undefinedRule target rule.name)) ∧
        generate g o c = .error (.error (.undefinedRule target rule.name))) ∨
    ((∀ rule ∈ g.rules, ∀ target, .reference target ∈ rule.body.preorder → target ∈ g.names) ∧
      ∃ types text, resolveTypes g o c = .ok types ∧ generate g o c = .ok text ∧
        types.map ResolvedType.rule = g.names ∧
        ∀ t ∈ types, (t.explicit = true ↔ t.rule ∈ o.keys) ∧
          (∀ text, o.get? t.rule = some text → t.type = .raw text) ∧
          (t.exported = true ↔ g.Exports t.rule)) := by
  rcases g.checkReferences_spec with ⟨hclosed, -⟩ | ⟨target, rule, hfirst, hcheck⟩
  · obtain ⟨types, htypes, hnames, hcorrect⟩ := resolveTypes_of_closed hclosed o c
    obtain ⟨text, htext, -⟩ := generate_of_closed hclosed htypes hcorrect
    refine .inr ⟨hclosed, types, text, htypes, htext, hnames, fun t ht => ?_⟩
    exact ⟨(hcorrect t ht).explicit, fun _ => (hcorrect t ht).type_eq, (hcorrect t ht).exported⟩
  · have hresolve : resolveTypes g o c = .error (.error (.undefinedRule target rule.name)) := by
      rw [resolveTypes, hcheck]
      rfl
    refine .inl ⟨⟨rule, hfirst.mem.1, target, hfirst.mem.2, hfirst.1⟩, ?_⟩
    refine ⟨target, rule, hfirst, hresolve, ?_⟩
    rw [generate, hresolve]
    rfl

end RuleTypes
