import RuleTypes.Proofs.Generation.Variants

/-!
# Declarations are closed and hygienic

The types of a grammar refer to rules of the grammar only, and every rule is declared once, under an
identifier of its own. So whatever identifier a type is written with, exactly one declaration has
it.

* `ResolvedType.Correct.mem_names_of_ref`: types refer to rules.
* `Grammar.map_identifier`: the identifiers of the declarations are those of the rules.
* `declarations_of_parse`: the declarations of a parsed grammar.
-/

namespace RuleTypes

variable {g : Grammar} {o : Overrides} {c : Config}

/-- The type of a rule refers to rules of the grammar: a given text refers to nothing, and an
inferred type to what the grammar refers to. -/
theorem ResolvedType.Correct.mem_names_of_ref {t : ResolvedType} (h : t.Correct g o c)
    (hclosed : g.Closed) {target : Text} (href : .ref target ∈ t.type.nodes) :
    target ∈ g.names := by
  rcases h.answer.raw_or_inferred hclosed h.mem with ⟨_, text, -, htype⟩ | hinferred
  · rw [htype, TsType.nodes] at href
    cases List.mem_singleton.mp href
  · exact hinferred _ href

/-- The identifiers of the declarations are those of the rules, in rule order. -/
theorem Grammar.map_identifier (nameOf : Text → Text) {types : List ResolvedType}
    (h : types.map ResolvedType.rule = g.names) :
    (types.map (ResolvedType.declaration nameOf)).map Declaration.identifier =
      g.names.map nameOf := by
  rw [← h, List.map_map, List.map_map]
  rfl

/-- Different rules have different identifiers. -/
theorem Grammar.nodup_identifiers (g : Grammar) (c : Config) :
    (g.names.map (g.namer c).nameOf).Nodup := by
  refine g.nodup.map_on fun rule hrule other hother heq => ?_
  exact Namer.nameOf_injective hrule hother heq

/-- In camel case no rule of a parsed grammar has a keyword for its identifier. -/
theorem Grammar.not_keyword_of_parse {source : Text} {startRules : List Text}
    (h : Grammar.parse source startRules = .ok g) (hc : c.keepNames = false) {rule : Text}
    (hrule : rule ∈ g.names) :
    .keyword ((g.namer c).nameOf rule) ∉ [TsType.string, .null, .undefined, .never] := by
  have hnamer : g.namer c = g.namer {} := by
    rw [namer, hc]
    rfl
  rw [hnamer]
  exact (identifies_of_parse h).not_keyword hrule

/-- **Declarations are closed and hygienic.** A parsed grammar without dangling references is
declared rule by rule. The rules that its types refer to are rules of the grammar, and exactly one
declaration has the identifier that such a rule is written with. Different rules have different
identifiers, and in camel case no keywords. -/
theorem declarations_of_parse {source : Text} {startRules : List Text}
    (h : Grammar.parse source startRules = .ok g) (hclosed : g.Closed) (o : Overrides)
    (c : Config) :
    ∃ types declarations text, resolveTypes g o c = .ok types ∧
      types.mapM (ResolvedType.declare (g.namer c)) = .ok declarations ∧
      renderBlock (g.namer c).nameOf c.header declarations = some text ∧
      generate g o c = .ok text ∧
      (∀ t ∈ types, ∀ target, .ref target ∈ t.type.nodes → target ∈ g.names ∧
        ∃ id, (TsType.ref target).render (g.namer c).nameOf = some id ∧
          (declarations.map Declaration.identifier).count id = 1) ∧
      declarations.map Declaration.identifier = g.names.map (g.namer c).nameOf ∧
      (declarations.map Declaration.identifier).Nodup ∧
      (∀ d ∈ declarations, d.identifier.isIdentifier = true) ∧
      (c.keepNames = false → ∀ d ∈ declarations,
        .keyword d.identifier ∉ [TsType.string, .null, .undefined, .never]) := by
  obtain ⟨types, htypes, hnames, hcorrect⟩ := resolveTypes_of_closed hclosed o c
  obtain ⟨text, htext, hblock⟩ := generate_of_closed hclosed htypes hcorrect
  have hidentifiers := Grammar.map_identifier (g.namer c).nameOf hnames
  have hrule : ∀ d ∈ types.map (ResolvedType.declaration (g.namer c).nameOf),
      ∃ rule ∈ g.names, d.identifier = (g.namer c).nameOf rule := by
    intro d hd
    obtain ⟨t, ht, rfl⟩ := List.mem_map.mp hd
    exact ⟨t.rule, (hcorrect t ht).mem, rfl⟩
  refine ⟨types, _, text, htypes, ResolvedType.mapM_declare_ok hcorrect, hblock, htext, ?_,
    hidentifiers, hidentifiers ▸ g.nodup_identifiers c, ?_, ?_⟩
  · intro t ht target href
    have hmem := (hcorrect t ht).mem_names_of_ref hclosed href
    refine ⟨hmem, _, rfl, ?_⟩
    rw [hidentifiers]
    exact List.count_eq_one_of_mem (g.nodup_identifiers c) (List.mem_map_of_mem hmem)
  · intro d hd
    obtain ⟨rule, hmem, hid⟩ := hrule d hd
    rw [hid]
    exact Namer.isIdentifier_nameOf hmem (Grammar.isIdentifier_of_parse h rule hmem)
  · intro hc d hd
    obtain ⟨rule, hmem, hid⟩ := hrule d hd
    rw [hid]
    exact Grammar.not_keyword_of_parse h hc hmem

/-- A cycle, a chain that runs into it, two rules that ask for one identifier, a rule that asks for
the identifier of a keyword, and an override. -/
theorem declarations_of_parse_colliding :
    let source : Text := "a_b=c\nc=a_b\naB=string*/c/d\nstring=c\nd=."
    let g : Grammar :=
      ⟨[⟨"a_b", .reference "c", false, none⟩, ⟨"c", .reference "a_b", false, none⟩,
        ⟨"aB", .choice [.repetition (.reference "string") false, .reference "c",
          .reference "d"], false, none⟩,
        ⟨"string", .reference "c", false, none⟩, ⟨"d", .anyChar, false, none⟩], by decide⟩
    let o : Overrides := .ofList [("d", "a_b | null"), ("e", "C")]
    let c : Config := { fallback := "C[]" }
    Grammar.parse source [] = .ok g ∧ g.Closed ∧
      ∃ types declarations text, resolveTypes g o c = .ok types ∧
        types.mapM (ResolvedType.declare (g.namer c)) = .ok declarations ∧
        renderBlock (g.namer c).nameOf c.header declarations = some text ∧
        generate g o c = .ok text ∧
        (∀ t ∈ types, ∀ target, .ref target ∈ t.type.nodes → target ∈ g.names ∧
          ∃ id, (TsType.ref target).render (g.namer c).nameOf = some id ∧
            (declarations.map Declaration.identifier).count id = 1) ∧
        declarations.map Declaration.identifier = g.names.map (g.namer c).nameOf ∧
        (declarations.map Declaration.identifier).Nodup ∧
        (∀ d ∈ declarations, d.identifier.isIdentifier = true) ∧
        (c.keepNames = false → ∀ d ∈ declarations,
          .keyword d.identifier ∉ [TsType.string, .null, .undefined, .never]) := by
  intro source g o c
  have hparse : Grammar.parse source [] = .ok g := by
    set_option maxRecDepth 2000 in with_unfolding_all rfl
  have hclosed : g.Closed := by
    simp [g, Grammar.Closed, Grammar.Binds, Grammar.names, Expr.preorder, Expr.preorders]
  exact ⟨hparse, hclosed, declarations_of_parse hparse hclosed o c⟩

end RuleTypes
