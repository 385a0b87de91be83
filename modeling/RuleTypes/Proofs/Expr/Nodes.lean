import RuleTypes.Expr.Traversal

/-!
# Nodes of expressions

The nodes of an expression are itself and the nodes of its parts, and so are its references.

* `Expr.mem_preorder_iff`: the nodes of an expression, one level at a time.
* `Expr.references_eq`: the references of an expression are its own and those of its parts.
-/

namespace RuleTypes

namespace Expr

theorem preorders_eq_flatMap (es : List Expr) : preorders es = es.flatMap preorder := by
  induction es with
  | nil => rfl
  | cons e es ih => rw [preorders, ih, List.flatMap_cons]

theorem mem_preorders_iff {n : Expr} {es : List Expr} :
    n ∈ preorders es ↔ ∃ e ∈ es, n ∈ e.preorder := by
  rw [preorders_eq_flatMap, List.mem_flatMap]

theorem mem_preorder_iff {n e : Expr} :
    n ∈ e.preorder ↔ n = e ∨ ∃ c ∈ e.children, n ∈ c.preorder := by
  rw [preorder_eq, List.mem_cons, mem_preorders_iff]

theorem mem_preorder_self (e : Expr) : e ∈ e.preorder := mem_preorder_iff.mpr (.inl rfl)

/-- The nodes of a part are nodes of the whole. -/
theorem mem_preorder_of_child {n c e : Expr} (hc : c ∈ e.children) (h : n ∈ c.preorder) :
    n ∈ e.preorder :=
  mem_preorder_iff.mpr (.inr ⟨c, hc, h⟩)

/-! ## References -/

theorem references_eq_preorder (e : Expr) : e.references = e.preorder.filterMap reference? := by
  rw [references, walk_eq_preorder]

theorem filterMap_preorders (es : List Expr) :
    (preorders es).filterMap reference? = es.flatMap references := by
  simp only [preorders_eq_flatMap, List.filterMap_flatMap, ← references_eq_preorder]

/-- The references of an expression: itself, if it is one, and those of its parts. -/
theorem references_eq (e : Expr) :
    e.references = e.reference?.toList ++ e.children.flatMap references := by
  rw [references_eq_preorder, preorder_eq, List.filterMap_cons, filterMap_preorders]
  cases e.reference? <;> rfl

/-- An expression with one part has the references of that part. -/
theorem references_of_single {e operand : Expr} (hr : e.reference? = none)
    (hc : e.children = [operand]) : e.references = operand.references := by
  rw [references_eq, hr, hc, List.flatMap_singleton]
  rfl

end Expr

end RuleTypes
