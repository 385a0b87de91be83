import RuleTypes.Proofs.Resolver.Memo
import RuleTypes.Proofs.Source.WellFormed
import RuleTypes.Proofs.TsType.Normal

/-!
# Resolving gives types in normal form

A rule is resolved to a given text, to a reference or to the type of a body, and each of these is in
normal form. The bodies of a parsed grammar are well-formed, so that none of its types holds the
type without values, not even where a given text spells its name.

* `Answer.type_cases`: what a rule is resolved to.
* `normal_resolve`: the types of expressions and rules, whatever the resolver was asked before.
-/

namespace RuleTypes.Resolver

variable {r : Resolver} {name : Text} {type : TsType}

/-- A rule is resolved to a given text, to a reference or to the type of a rule's body. -/
theorem Answer.type_cases (h : r.Answer name (.ok type)) :
    (∃ text, type = .raw text) ∨ (∃ rule, type = .ref rule) ∨
      ∃ rule ∈ r.grammar.rules, type = rule.body.valueType r.fallback := by
  cases h with
  | settled _ hs =>
    cases hs with
    | explicit _ => exact .inl ⟨_, rfl⟩
    | shaped _ hr _ => exact .inr (.inr ⟨_, List.mem_of_find?_eq_some hr, rfl⟩)
  | onCycle _ _ => exact .inr (.inl ⟨_, rfl⟩)
  | entering _ _ => exact .inr (.inl ⟨_, rfl⟩)

theorem Answer.normal (h : r.Answer name (.ok type)) : type.Normal := by
  rcases h.type_cases with ⟨text, rfl⟩ | ⟨rule, rfl⟩ | ⟨rule, -, rfl⟩
  · exact TsType.normal_of_leaf rfl trivial
  · exact TsType.normal_of_leaf rfl trivial
  · exact rule.body.normal_valueType r.fallback

theorem Answer.never_not_mem (h : r.Answer name (.ok type))
    (hwell : ∀ rule ∈ r.grammar.rules, rule.body.WellFormed) : .never ∉ type.nodes := by
  rcases h.type_cases with ⟨text, rfl⟩ | ⟨rule, rfl⟩ | ⟨rule, hrule, rfl⟩
  · exact TsType.not_mem_nodes_of_leaf rfl nofun
  · exact TsType.not_mem_nodes_of_leaf rfl nofun
  · exact Expr.never_not_mem_valueType r.fallback (hwell rule hrule)

/-- **Inferred types are in normal form.** The type of any expression, and whatever a rule is
resolved to after any calls, is in normal form and can be written. Where the grammar was parsed,
neither the types of the nodes of its bodies nor those of its rules hold the type without values. -/
theorem normal_resolve (r : Resolver) (calls : List Call) :
    (∀ e : Expr, (e.valueType r.fallback).Normal ∧
      ∀ nameOf, ∃ text, (e.valueType r.fallback).render nameOf = some text) ∧
    (∀ name type, (r.resolve (r.memoAfter calls) name).1 = .ok type →
      type.Normal ∧ ∀ nameOf, ∃ text, type.render nameOf = some text) ∧
    ∀ source startRules, Grammar.parse source startRules = .ok r.grammar →
      (∀ rule ∈ r.grammar.rules, ∀ e ∈ rule.body.preorder,
        .never ∉ (e.valueType r.fallback).nodes) ∧
      ∀ name type, (r.resolve (r.memoAfter calls) name).1 = .ok type → .never ∉ type.nodes := by
  have hanswer : ∀ name type, (r.resolve (r.memoAfter calls) name).1 = .ok type →
      r.Answer name (.ok type) := fun name type htype =>
    htype ▸ (resolve_spec (memoAfter_sound r calls) name).2.1
  refine ⟨fun e => ?_, fun name type htype => ?_, fun source startRules hparse => ⟨?_, ?_⟩⟩
  · have hnormal := e.normal_valueType r.fallback
    exact ⟨hnormal, hnormal.exists_render⟩
  · have hnormal := (hanswer name type htype).normal
    exact ⟨hnormal, hnormal.exists_render⟩
  · intro rule hrule e he
    have hwell := (Grammar.rules_of_parse hparse rule hrule).2
    exact Expr.never_not_mem_valueType r.fallback (hwell.of_mem he)
  · intro name type htype
    exact (hanswer name type htype).never_not_mem fun rule hrule =>
      (Grammar.rules_of_parse hparse rule hrule).2

/-- A union inside an array, next to a rule that is given a text which spells `never`; the resolver
failed to resolve another name before. -/
theorem normal_resolve_given_never :
    let source : Text := "a=('x'/b)*/b?\nb=c\nc='y'/'x'"
    let a : Rule :=
      ⟨"a", .choice [.repetition (.choice [.literals ["x"] false, .reference "b"]) false,
        .optional (.reference "b")], false, none⟩
    let g : Grammar :=
      ⟨[a, ⟨"b", .reference "c", false, none⟩,
        ⟨"c", .literals ["y", "x"] false, false, none⟩], by decide⟩
    let r : Resolver := ⟨g, .ofList [("b", "never")], "string[]"⟩
    let calls : List Call := [.resolve "d", .resolve "b"]
    let type : TsType :=
      .union [.array (.union [.literal "x", .ref "b"]), .ref "b", .null]
    Grammar.parse source [] = .ok r.grammar ∧
      (r.resolve (r.memoAfter calls) "a").1 = .ok type ∧
      (type.Normal ∧ ∀ nameOf, ∃ text, type.render nameOf = some text) ∧ .never ∉ type.nodes := by
  intro source a g r calls type
  have hparse : Grammar.parse source [] = .ok r.grammar := by
    set_option maxRecDepth 2000 in with_unfolding_all rfl
  have hfound : r.grammar.rule? "a" = some a := rfl
  have htype : (r.resolve (r.memoAfter calls) "a").1 = .ok type :=
    (resolve_spec (memoAfter_sound r calls) "a").2.1.unique (.settled .refl (.shaped rfl hfound rfl))
  obtain ⟨-, hnormal, hnever⟩ := normal_resolve r calls
  exact ⟨hparse, htype, hnormal _ _ htype, (hnever _ _ hparse).2 _ _ htype⟩

end RuleTypes.Resolver
