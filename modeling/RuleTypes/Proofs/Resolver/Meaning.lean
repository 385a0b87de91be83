import Mathlib.Algebra.GroupWithZero.Nat
import RuleTypes.Proofs.Expr.Meaning
import RuleTypes.Proofs.Resolver.Closed

/-!
# Resolving keeps meaning

In an interpretation in which every rule has the values of its given text or of its body, the rules
of one chain all have the same values. So the type that a rule is resolved to has its values, be it
the type at the end of the chain or a reference to a rule on a cycle.

* `Interpretation.Models`: an interpretation that agrees with a grammar and its given texts.
* `Answer.type_eq`: the type that a rule is resolved to has the values of the rule.
* `type_resolve`: so has what a resolver answers, whatever it was asked before.
-/

namespace RuleTypes

namespace Interpretation

variable {α : Type*} {r : Resolver} {I : Interpretation α}

/-- Whether every rule has the values of its given text, or of its body where none is given. -/
structure Models (I : Interpretation α) (r : Resolver) : Prop where
  given : ∀ {name text}, r.given? name = some text → I.rule name = I.raw text
  body : ∀ rule ∈ r.grammar.rules, r.given? rule.name = none →
    I.rule rule.name = I.expr r.fallback rule.body

theorem Models.rule_eq (hI : I.Models r) {name : Text} {rule : Rule}
    (hg : r.given? name = none) (hr : r.grammar.rule? name = some rule) :
    I.rule name = I.expr r.fallback rule.body := by
  obtain rfl := Grammar.name_of_rule? hr
  exact hI.body rule (Grammar.rule_mem hr) hg

/-- A bare reference has the values of the rule that it refers to. -/
theorem expr_of_pureReference? (I : Interpretation α) (fallback : Text) {e : Expr}
    {target : Text} (h : e.pureReference? = some target) : I.expr fallback e = I.rule target := by
  fun_induction Expr.pureReference? e with
  | case1 rule => rw [expr, Option.some.inj h]
  | case2 e ih =>
    rw [expr, exprs, exprs, Set.union_empty, ih h]
  | case3 => cases h

end Interpretation

namespace Resolver

variable {α : Type*} {r : Resolver} {I : Interpretation α}

/-! ## Values along a chain -/

theorem Follows.rule_eq (hI : I.Models r) {a b : Text} (h : r.Follows a b) :
    I.rule a = I.rule b := by
  obtain ⟨hg, htarget⟩ := h
  obtain ⟨rule, hrule, hbody⟩ := Option.bind_eq_some_iff.mp htarget
  rw [hI.rule_eq hg hrule, I.expr_of_pureReference? _ hbody]

/-- All rules of a chain have the same values. -/
theorem Leads.rule_eq (hI : I.Models r) {a b : Text} (h : r.Leads a b) : I.rule a = I.rule b := by
  induction h with
  | refl => rfl
  | tail _ hf ih => exact ih.trans (hf.rule_eq hI)

theorem Settled.type_eq (hI : I.Models r) {name : Text} {type : TsType}
    (h : r.Settled name (.ok type)) : I.type type = I.rule name := by
  cases h with
  | explicit hg => exact (hI.given hg).symm
  | shaped hg hr _ =>
    exact (I.type_valueType _ _).trans (hI.rule_eq hg hr).symm

/-- What a rule is resolved to has the values of the rule. -/
theorem Answer.type_eq (hI : I.Models r) {name : Text} {type : TsType}
    (h : r.Answer name (.ok type)) : I.type type = I.rule name := by
  cases h with
  | settled hl hs => exact (hs.type_eq hI).trans (hl.rule_eq hI).symm
  | onCycle hc ht => exact ((hc.follows ht).rule_eq hI).symm
  | entering _ he => exact (he.leads.rule_eq hI).symm

/-- **Resolving keeps meaning.** In a closed grammar every rule is resolved to a type, which has the
values of the rule. -/
theorem type_resolve (hclosed : r.grammar.Closed) (hI : I.Models r) (calls : List Call)
    {name : Text} (hname : name ∈ r.grammar.names) :
    ∃ type, (r.resolve (r.memoAfter calls) name).1 = .ok type ∧ I.type type = I.rule name := by
  obtain ⟨-, ha, -⟩ := resolve_spec (memoAfter_sound r calls) name
  obtain ⟨type, htype⟩ := ha.exists_ok hclosed hname
  rw [htype] at ha
  exact ⟨type, htype, ha.type_eq hI⟩

/-- A cycle of two rules and a rule of given type, seen from a rule with a structure of its own. -/
theorem type_resolve_choice :
    let r : Resolver :=
      { grammar := ⟨[⟨"a", .reference "b", false, none⟩, ⟨"b", .reference "a", false, none⟩,
          ⟨"c", .choice [.reference "a", .optional (.reference "d"), .literals ["x"] false], true,
            none⟩,
          ⟨"d", .anyChar, false, none⟩], by decide⟩
        overrides := .ofList [("d", "Date")]
        fallback := "string[]" }
    let I : Interpretation Nat :=
      { rule := fun name => if name = "c" then {1, 2, 3, 4} else if name = "d" then {2} else {1}
        raw := fun _ => {2}
        keyword := fun name => if name = "null" then {3} else ∅
        literal := fun _ => 4
        list := List.sum
        keyword_never := if_neg (by decide) }
    r.grammar.Closed ∧ I.Models r ∧
      ∃ type, (r.resolve (r.memoAfter [.resolve "b"]) "c").1 = .ok type ∧
        I.type type = I.rule "c" := by
  intro r I
  have hclosed : r.grammar.Closed := by
    simp [r, Grammar.Closed, Grammar.Binds, Grammar.names, Expr.preorder, Expr.preorders]
  have hI : I.Models r := by
    constructor
    · intro name text h
      have hname : name = "d" := by
        by_contra hne
        simp [given?, Overrides.explicit?, r, Dictionary.ofList, hne] at h
        simp [Dictionary.get?, Dictionary.empty] at h
      rw [hname]
      rfl
    · intro rule hrule hg
      simp only [r, List.mem_cons, List.not_mem_nil, or_false] at hrule
      rcases hrule with rfl | rfl | rfl | rfl
      · rfl
      · rfl
      · ext v
        have ha : I.rule "a" = {1} := rfl
        have hc : I.rule "c" = {1, 2, 3, 4} := rfl
        have hd : I.rule "d" = {2} := rfl
        have hx : I.literal "x" = 4 := rfl
        have hnull : I.keyword "null" = {3} := rfl
        simp only [Interpretation.expr, Interpretation.exprs, ha, hc, hd, hnull]
        simp
        omega
      · cases hg
  exact ⟨hclosed, hI, type_resolve hclosed hI _ (by decide)⟩

end Resolver

end RuleTypes
