import RuleTypes.Text.CodePoint

/-!
# Expressions of rules

The body of a rule is an `Expr`: what it matches, as far as that says something about the value of
the match. Rules refer to each other by name alone, so recursive grammars are finite trees.

* `Expr.children` are the parts of an expression, `Expr.size` counts its nodes, and
  `Expr.induction` proves a statement from the parts up.
-/

namespace RuleTypes

/-- What a rule matches. -/
inductive Expr where
  /-- An expression of no particular kind. -/
  | unknown
  /-- One of several literals. -/
  | literals (values : List Text) (ignoreCase : Bool)
  /-- A character class, as written between its brackets and with them. -/
  | charClass (pattern : Text)
  | anyChar
  /-- A reference to the rule of this name. -/
  | reference (rule : Text)
  /-- An ordered choice. -/
  | choice (alternatives : List Expr)
  | sequence (elements : List Expr)
  /-- Any number of matches, or at least one. -/
  | repetition (operand : Expr) (atLeastOne : Bool)
  | optional (operand : Expr)
  /-- A labeled or plucked part. -/
  | capture (operand : Expr) (label : Option Text) (pluck : Bool)
  /-- The matched text in place of the value. -/
  | text (operand : Expr)
  /-- A condition on what follows. -/
  | lookahead (operand : Expr) (negated : Bool) (code : Option Text)
  /-- A condition that runs code. -/
  | semantic (negated : Bool) (code : Option Text)
  /-- A value computed by code. -/
  | action (operand : Expr) (code : Text)

namespace Expr

/-- The direct parts of an expression, from left to right. -/
def children : Expr → List Expr
  | unknown => []
  | literals _ _ => []
  | charClass _ => []
  | anyChar => []
  | reference _ => []
  | choice alternatives => alternatives
  | sequence elements => elements
  | repetition operand _ => [operand]
  | optional operand => [operand]
  | capture operand _ _ => [operand]
  | text operand => [operand]
  | lookahead operand _ _ => [operand]
  | semantic _ _ => []
  | action operand _ => [operand]

mutual

/-- The number of nodes of an expression. -/
def size : Expr → Nat
  | unknown => 1
  | literals _ _ => 1
  | charClass _ => 1
  | anyChar => 1
  | reference _ => 1
  | choice alternatives => 1 + sizes alternatives
  | sequence elements => 1 + sizes elements
  | repetition operand _ => 1 + size operand
  | optional operand => 1 + size operand
  | capture operand _ _ => 1 + size operand
  | text operand => 1 + size operand
  | lookahead operand _ _ => 1 + size operand
  | semantic _ _ => 1
  | action operand _ => 1 + size operand

/-- The number of nodes of several expressions. -/
def sizes : List Expr → Nat
  | [] => 0
  | e :: es => size e + sizes es

end

theorem size_eq (e : Expr) : e.size = 1 + sizes e.children := by
  cases e <;> simp [size, sizes, children]

theorem sizes_append (es fs : List Expr) : sizes (es ++ fs) = sizes es + sizes fs := by
  induction es with
  | nil => simp [sizes]
  | cons e es ih => simp [sizes, ih]; omega

theorem size_le_sizes {e : Expr} {es : List Expr} (h : e ∈ es) : e.size ≤ sizes es := by
  induction es with
  | nil => cases h
  | cons f es ih =>
    simp only [sizes]
    rcases List.mem_cons.mp h with rfl | h
    · omega
    · have := ih h; omega

theorem size_lt_of_mem_children {c e : Expr} (h : c ∈ e.children) : c.size < e.size := by
  have := size_le_sizes h
  have := size_eq e
  omega

/-- Induction from the parts of an expression to the expression. -/
theorem induction {motive : Expr → Prop}
    (step : ∀ e, (∀ c ∈ e.children, motive c) → motive e) (e : Expr) : motive e :=
  step e fun c h => have := size_lt_of_mem_children h; induction step c
termination_by e.size

/-! ## Equality -/

mutual

/-- Whether two expressions are of one kind with equal fields. -/
def same : Expr → Expr → Bool
  | unknown, unknown => true
  | literals vs i, literals ws j => vs = ws && i = j
  | charClass p, charClass q => p = q
  | anyChar, anyChar => true
  | reference r, reference s => r = s
  | choice es, choice fs => sameList es fs
  | sequence es, sequence fs => sameList es fs
  | repetition e a, repetition f b => same e f && a = b
  | optional e, optional f => same e f
  | capture e l p, capture f m q => same e f && l = m && p = q
  | text e, text f => same e f
  | lookahead e n c, lookahead f m d => same e f && n = m && c = d
  | semantic n c, semantic m d => n = m && c = d
  | action e c, action f d => same e f && c = d
  | _, _ => false

/-- Whether two lists of expressions are equal member by member. -/
def sameList : List Expr → List Expr → Bool
  | [], [] => true
  | e :: es, f :: fs => same e f && sameList es fs
  | _, _ => false

end

mutual

theorem same_iff : ∀ e f : Expr, same e f = true ↔ e = f
  | unknown, f => by cases f <;> simp [same]
  | literals _ _, f => by cases f <;> simp [same]
  | charClass _, f => by cases f <;> simp [same]
  | anyChar, f => by cases f <;> simp [same]
  | reference _, f => by cases f <;> simp [same]
  | choice es, f => by cases f <;> simp [same, sameList_iff es]
  | sequence es, f => by cases f <;> simp [same, sameList_iff es]
  | repetition e _, f => by cases f <;> simp [same, same_iff e]
  | optional e, f => by cases f <;> simp [same, same_iff e]
  | capture e _ _, f => by cases f <;> simp [same, same_iff e, and_assoc]
  | text e, f => by cases f <;> simp [same, same_iff e]
  | lookahead e _ _, f => by cases f <;> simp [same, same_iff e, and_assoc]
  | semantic _ _, f => by cases f <;> simp [same]
  | action e _, f => by cases f <;> simp [same, same_iff e]

theorem sameList_iff : ∀ es fs : List Expr, sameList es fs = true ↔ es = fs
  | [], fs => by cases fs <;> simp [sameList]
  | e :: es, fs => by cases fs <;> simp [sameList, same_iff e, sameList_iff es]

end

instance : DecidableEq Expr := fun e f => decidable_of_iff _ (same_iff e f)

end Expr

end RuleTypes
