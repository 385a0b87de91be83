import RuleTypes.Grammar.Basic
import RuleTypes.Proofs.Expr.Nodes

/-!
# Closed grammars

A grammar is closed when every rule that is referred to exists. The check of references goes through
the rules in order and through every body from the outside in and from left to right, so it reports
the first reference that dangles.

* `Grammar.Binds`, `Grammar.Closed`: the references among some nodes, and those of all rules, have
  their rules.
* `Grammar.FirstDangling`: which reference is the first that dangles.
* `Grammar.checkReferences_spec`: what the check of references does.
-/

namespace RuleTypes

namespace Expr

theorem reference?_eq_some {e : Expr} {target : Text} :
    e.reference? = some target ↔ e = .reference target := by
  cases e <;> simp [reference?]

theorem mem_references_iff {e : Expr} {target : Text} :
    target ∈ e.references ↔ .reference target ∈ e.preorder := by
  simp [references_eq_preorder, reference?_eq_some]

/-- A bare reference is among the references of an expression. -/
theorem mem_references_of_pureReference? {e : Expr} {target : Text}
    (h : e.pureReference? = some target) : target ∈ e.references := by
  fun_induction pureReference? e with
  | case1 rule =>
    obtain rfl := Option.some.inj h
    exact mem_references_iff.mpr (mem_preorder_self _)
  | case2 e ih =>
    exact mem_references_iff.mpr
      (mem_preorder_of_child (by simp [children]) (mem_references_iff.mp (ih h)))
  | case3 => cases h

end Expr

namespace Grammar

/-- Whether the references among some nodes have their rules. -/
def Binds (g : Grammar) (nodes : List Expr) : Prop :=
  ∀ target, .reference target ∈ nodes → target ∈ g.names

/-- Whether all references have their rules. -/
def Closed (g : Grammar) : Prop := ∀ rule ∈ g.rules, g.Binds rule.body.preorder

/-- Whether the reference to `target` in the body of `rule` is the first that dangles: the nodes
before it in the body, and all nodes of earlier rules, have no such reference. -/
def FirstDangling (g : Grammar) (target : Text) (rule : Rule) : Prop :=
  target ∉ g.names ∧
    (∃ earlier later, g.rules = earlier ++ rule :: later ∧
      ∀ other ∈ earlier, g.Binds other.body.preorder) ∧
    ∃ before after, rule.body.preorder = before ++ .reference target :: after ∧ g.Binds before

variable {g : Grammar}

theorem rule_mem {name : Text} {rule : Rule} (h : g.rule? name = some rule) : rule ∈ g.rules :=
  List.mem_of_find?_eq_some h

theorem contains_iff {name : Text} : g.contains name = true ↔ name ∈ g.names := by
  simp [contains]

/-! ## The first dangling reference of a body -/

theorem dangling?_eq_none_iff {e : Expr} :
    (e.references.find? fun target => !g.contains target) = none ↔ g.Binds e.preorder := by
  simp [Binds, contains_iff, Expr.mem_references_iff]

theorem dangling?_eq_some {e : Expr} {target : Text}
    (h : (e.references.find? fun target => !g.contains target) = some target) :
    target ∉ g.names ∧ ∃ before after,
      e.preorder = before ++ .reference target :: after ∧ g.Binds before := by
  rw [Expr.references_eq_preorder, List.find?_filterMap, Option.bind_eq_some_iff] at h
  obtain ⟨node, hfind, hnode⟩ := h
  obtain rfl := Expr.reference?_eq_some.mp hnode
  obtain ⟨hdangles, before, after, hsplit, hbefore⟩ := List.find?_eq_some_iff_append.mp hfind
  refine ⟨?_, before, after, hsplit, fun other hother => ?_⟩
  · rw [← contains_iff]
    simpa [Expr.reference?] using hdangles
  · rw [← contains_iff]
    simpa [Expr.reference?] using hbefore _ hother

/-! ## The check of references -/

theorem danglingReference?_eq_none_iff : g.danglingReference? = none ↔ g.Closed := by
  simp only [danglingReference?, List.findSome?_eq_none_iff, Option.map_eq_none_iff,
    dangling?_eq_none_iff, Closed]

theorem danglingReference?_eq_some {target name : Text}
    (h : g.danglingReference? = some (target, name)) :
    ∃ rule, rule.name = name ∧ g.FirstDangling target rule := by
  obtain ⟨earlier, rule, later, hsplit, hrule, hearlier⟩ := List.findSome?_eq_some_iff.mp h
  obtain ⟨found, hfound, hpair⟩ := Option.map_eq_some_iff.mp hrule
  obtain ⟨rfl, rfl⟩ := Prod.mk.inj hpair
  obtain ⟨hdangles, hbody⟩ := dangling?_eq_some hfound
  refine ⟨rule, rfl, hdangles, ⟨earlier, later, hsplit, fun other hother => ?_⟩, hbody⟩
  exact dangling?_eq_none_iff.mp (Option.map_eq_none_iff.mp (hearlier other hother))

theorem FirstDangling.mem {target : Text} {rule : Rule} (h : g.FirstDangling target rule) :
    rule ∈ g.rules ∧ .reference target ∈ rule.body.preorder := by
  obtain ⟨-, ⟨earlier, later, hrules, -⟩, before, after, hbody, -⟩ := h
  constructor
  · rw [hrules]
    simp
  · rw [hbody]
    simp

theorem FirstDangling.not_closed {target : Text} {rule : Rule} (h : g.FirstDangling target rule) :
    ¬ g.Closed :=
  fun hclosed => h.1 (hclosed rule h.mem.1 target h.mem.2)

/-- The check of references succeeds on closed grammars, and otherwise reports the first reference
that dangles. -/
theorem checkReferences_spec (g : Grammar) :
    (g.Closed ∧ g.checkReferences = .ok ()) ∨
      ∃ target rule, g.FirstDangling target rule ∧
        g.checkReferences = .error (.undefinedRule target rule.name) := by
  unfold checkReferences
  cases h : g.danglingReference? with
  | none => exact .inl ⟨danglingReference?_eq_none_iff.mp h, rfl⟩
  | some found =>
    obtain ⟨target, name⟩ := found
    obtain ⟨rule, rfl, hfirst⟩ := danglingReference?_eq_some h
    exact .inr ⟨target, rule, hfirst, rfl⟩

end Grammar

end RuleTypes
