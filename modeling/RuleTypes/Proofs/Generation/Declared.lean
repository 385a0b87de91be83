import RuleTypes.Proofs.Declaration.Block
import RuleTypes.Proofs.Generation.Total
import RuleTypes.Proofs.Resolver.Agreement

/-!
# Blocks, declaration by declaration

The block of a closed grammar is its header, its banner and one text for each rule. The identifiers
and the marks of the declarations are those of the rules, whatever their types are, and the type of
a rule depends on its chain alone.

* `Grammar.Declares`: the declarations of a block, with their texts.
* `ResolvedType.Correct.declaration_eq`: rules that are resolved from the same chain are declared
  alike.
* `getElem?_declarations_eq`: so are the rules in one place of two grammars.
-/

namespace RuleTypes

/-- Whether the block of a grammar is made of these declarations and of these texts of theirs. -/
structure Grammar.Declares (g : Grammar) (o : Overrides) (c : Config)
    (declarations : List Declaration) (pieces : List Text) : Prop where
  declared : ∃ types, resolveTypes g o c = .ok types ∧
    types.mapM (ResolvedType.declare (g.namer c)) = .ok declarations
  heads : declarations.map (fun d => (d.identifier, d.exported)) =
    g.names.map fun rule => ((g.namer c).nameOf rule, decide (rule ∈ g.startRules))
  written : List.Forall₂ (fun d piece => d.render (g.namer c).nameOf = some piece) declarations
    pieces
  generated : generate g o c = .ok (blockHead c.header ++ pieces.flatten)

variable {g g' : Grammar} {o o' : Overrides} {c : Config} {types types' : List ResolvedType}

/-! ## One block -/

/-- The identifiers and marks of the declarations are those of the rules. -/
theorem Grammar.map_heads (hnames : types.map ResolvedType.rule = g.names)
    (hcorrect : ∀ t ∈ types, t.Correct g o c) (nameOf : Text → Text) :
    (types.map (ResolvedType.declaration nameOf)).map (fun d => (d.identifier, d.exported)) =
      g.names.map fun rule => (nameOf rule, decide (rule ∈ g.startRules)) := by
  rw [← hnames, List.map_map, List.map_map]
  refine List.map_congr_left fun t ht => Prod.ext rfl ?_
  change t.exported = decide (t.rule ∈ g.startRules)
  rw [Bool.eq_iff_iff, decide_eq_true_iff, (hcorrect t ht).exported, Grammar.mem_startRules_iff]

theorem Grammar.exists_declares (hclosed : g.Closed) (htypes : resolveTypes g o c = .ok types)
    (hnames : types.map ResolvedType.rule = g.names) (hcorrect : ∀ t ∈ types, t.Correct g o c) :
    ∃ pieces, g.Declares o c (types.map (ResolvedType.declaration (g.namer c).nameOf)) pieces := by
  obtain ⟨text, htext, hblock⟩ := generate_of_closed hclosed htypes hcorrect
  rw [renderBlock_eq, Option.map_eq_some_iff] at hblock
  obtain ⟨pieces, hpieces, rfl⟩ := hblock
  exact ⟨pieces, ⟨types, htypes, ResolvedType.mapM_declare_ok hcorrect⟩,
    g.map_heads hnames hcorrect _, mapM_eq_some.mp hpieces, htext⟩

/-- Texts that are found one by one are found place by place. -/
theorem getElem?_of_forall₂ {α β : Type} {f : α → Option β} {as : List α} {bs : List β}
    (h : List.Forall₂ (fun a b => f a = some b) as bs) (k : Nat) : bs[k]? = as[k]?.bind f := by
  induction h generalizing k with
  | nil => rfl
  | cons hab _ ih =>
    cases k with
    | zero => exact hab.symm
    | succ k => exact ih k

/-- The text of a declaration is that in its place. -/
theorem Grammar.Declares.getElem?_pieces {ds : List Declaration} {pieces : List Text}
    (h : g.Declares o c ds pieces) (k : Nat) :
    pieces[k]? = ds[k]?.bind (Declaration.render (g.namer c).nameOf) :=
  getElem?_of_forall₂ h.written k

/-! ## Two blocks -/

/-- Rules that are resolved from the same chain and are both exported or both not are declared
alike. -/
theorem ResolvedType.Correct.declaration_eq {t t' : ResolvedType} (h : t.Correct g o c)
    (h' : t'.Correct g' o' c) (hrule : t.rule = t'.rule) (hstart : g.startRules = g'.startRules)
    (hagree : (g.resolver o c).AgreeFrom (g'.resolver o' c) t.rule) (nameOf : Text → Text) :
    t.declaration nameOf = t'.declaration nameOf := by
  have hanswer := h.answer.of_agree hagree
  rw [hrule] at hanswer
  have htype : t.type = t'.type := Except.ok.inj (hanswer.unique h'.answer)
  have hexported : t.exported = t'.exported := by
    rw [Bool.eq_iff_iff, h.exported, h'.exported, ← Grammar.mem_startRules_iff,
      ← Grammar.mem_startRules_iff, hrule, hstart]
  rw [declaration, declaration, hrule, htype, hexported]

/-- The rules in one place of two grammars are declared alike when they have one name and are
resolved from the same chain. -/
theorem getElem?_declarations_eq (hnames : types.map ResolvedType.rule = g.names)
    (hcorrect : ∀ t ∈ types, t.Correct g o c) (hnames' : types'.map ResolvedType.rule = g'.names)
    (hcorrect' : ∀ t ∈ types', t.Correct g' o' c) (hsame : g.names = g'.names)
    (hstart : g.startRules = g'.startRules) {k : Nat} {name : Text} (hk : g.names[k]? = some name)
    (hagree : (g.resolver o c).AgreeFrom (g'.resolver o' c) name) (nameOf : Text → Text) :
    (types.map (ResolvedType.declaration nameOf))[k]? =
      (types'.map (ResolvedType.declaration nameOf))[k]? := by
  have hk' := hk
  rw [hsame, ← hnames', List.getElem?_map] at hk'
  rw [← hnames, List.getElem?_map] at hk
  obtain ⟨t, ht, hrule⟩ := Option.map_eq_some_iff.mp hk
  obtain ⟨t', ht', hrule'⟩ := Option.map_eq_some_iff.mp hk'
  have hdeclared := (hcorrect t (List.mem_of_getElem? ht)).declaration_eq
    (hcorrect' t' (List.mem_of_getElem? ht')) (hrule.trans hrule'.symm) hstart (hrule ▸ hagree)
    nameOf
  rw [List.getElem?_map, List.getElem?_map, ht, ht', Option.map_some, Option.map_some, hdeclared]

end RuleTypes
