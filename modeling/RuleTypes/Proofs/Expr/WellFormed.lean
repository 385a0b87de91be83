import RuleTypes.Proofs.Expr.Nodes
import RuleTypes.Proofs.Text.Delimited
import RuleTypes.Source.Lowering

/-!
# Well-formed expressions

An expression is well-formed when every node has the fields that a written node has: literals
without repeats, names that are identifiers, code in braces, choices and sequences of two parts or
more. Expressions that a written phrase would be simplified to are told from those that it never
becomes.

* `Expr.Formed`: what is asked of a single node.
* `Expr.WellFormed`: every node is formed.
-/

namespace RuleTypes.Expr

/-- Whether the fields of a node are those of a written one. -/
def Formed : Expr → Prop
  | unknown => False
  | literals values ignoreCase =>
    values ≠ [] ∧ values.Nodup ∧ (ignoreCase = true → values.length = 1)
  | charClass pattern => pattern.isClass = true
  | anyChar => True
  | reference rule => rule.isIdentifier = true
  | choice alternatives =>
    2 ≤ alternatives.length ∧ ∃ a ∈ alternatives, a.literalValues? = none
  | sequence elements => 2 ≤ elements.length
  | repetition _ _ => True
  | optional _ => True
  | capture _ label pluck =>
    (label.isSome = true ∨ pluck = true) ∧ label.all Text.isIdentifier = true
  | text _ => True
  | lookahead _ _ code => code = none
  | semantic _ code => code.any Text.isBlock = true
  | action _ code => code.isBlock = true

instance : DecidablePred Formed
  | unknown => inferInstanceAs (Decidable False)
  | literals _ _ => inferInstanceAs (Decidable (_ ∧ _ ∧ _))
  | charClass _ => inferInstanceAs (Decidable (_ = _))
  | anyChar => inferInstanceAs (Decidable True)
  | reference _ => inferInstanceAs (Decidable (_ = _))
  | choice alternatives =>
    inferInstanceAs (Decidable (_ ∧ ∃ a ∈ alternatives, a.literalValues? = none))
  | sequence _ => inferInstanceAs (Decidable (_ ≤ _))
  | repetition _ _ => inferInstanceAs (Decidable True)
  | optional _ => inferInstanceAs (Decidable True)
  | capture _ _ _ => inferInstanceAs (Decidable (_ ∧ _))
  | text _ => inferInstanceAs (Decidable True)
  | lookahead _ _ _ => inferInstanceAs (Decidable (_ = _))
  | semantic _ _ => inferInstanceAs (Decidable (_ = _))
  | action _ _ => inferInstanceAs (Decidable (_ = _))

/-- Whether every node of an expression is formed. -/
def WellFormed (e : Expr) : Prop := ∀ n ∈ e.preorder, n.Formed

instance : DecidablePred WellFormed := fun e =>
  inferInstanceAs (Decidable (∀ n ∈ e.preorder, n.Formed))

/-- An expression is well-formed when it is formed and its parts are well-formed. -/
theorem wellFormed_iff {e : Expr} : e.WellFormed ↔ e.Formed ∧ ∀ c ∈ e.children, c.WellFormed := by
  constructor
  · intro h
    exact ⟨h e (mem_preorder_self e), fun c hc n hn => h n (mem_preorder_of_child hc hn)⟩
  · rintro ⟨he, hc⟩ n hn
    rcases mem_preorder_iff.mp hn with rfl | ⟨c, hmem, hn⟩
    · exact he
    · exact hc c hmem n hn

/-- The nodes of a well-formed expression are well-formed. -/
theorem WellFormed.of_mem {n e : Expr} (h : e.WellFormed) (hn : n ∈ e.preorder) :
    n.WellFormed := by
  induction e using Expr.induction with
  | step e ih =>
    rcases mem_preorder_iff.mp hn with rfl | ⟨c, hc, hn⟩
    · exact h
    · exact ih c hc ((wellFormed_iff.mp h).2 c hc) hn

end RuleTypes.Expr
