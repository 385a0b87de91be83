import RuleTypes.Expr.Traversal
import RuleTypes.Proofs.Source.Pluck

/-!
# Expressions that are alike

Much of an expression says nothing about the value of a match: what an action or a condition is made
of, what a text is taken from, how a part is labeled, how often an element is repeated at least,
which characters a class holds and which literals are meant when case is ignored. Expressions that
differ in nothing else are alike.

* `Expr.Alike`: one constructor for each kind of expression, with what must be the same.
* `Expr.Alike.valueType_eq`: alike expressions have values of the same type.
* `Expr.Alike.pureReference?_eq`: and are bare references to the same rule, or none.
-/

namespace RuleTypes.Expr

/-- Whether an expression is a condition, on what follows or in code. -/
def isCondition : Expr → Bool
  | lookahead _ _ _ => true
  | semantic _ _ => true
  | _ => false

mutual

/-- Whether two expressions differ, at any depth, in opaque parts only. -/
inductive Alike : Expr → Expr → Prop where
  | unknown : Alike unknown unknown
  | literals (values : List Text) : Alike (literals values false) (literals values false)
  /-- Literals of any case are alike whatever they are. -/
  | anyCase (values values' : List Text) : Alike (literals values true) (literals values' true)
  | charClass (pattern pattern' : Text) : Alike (charClass pattern) (charClass pattern')
  | anyChar : Alike anyChar anyChar
  | reference (rule : Text) : Alike (reference rule) (reference rule)
  | choice {es fs : List Expr} (h : AllAlike es fs) : Alike (choice es) (choice fs)
  | sequence {es fs : List Expr} (h : AllAlike es fs) : Alike (sequence es) (sequence fs)
  | repetition {e f : Expr} (h : Alike e f) (atLeastOne atLeastOne' : Bool) :
      Alike (repetition e atLeastOne) (repetition f atLeastOne')
  | optional {e f : Expr} (h : Alike e f) : Alike (optional e) (optional f)
  | capture {e f : Expr} (h : Alike e f) (label label' : Option Text) (pluck : Bool) :
      Alike (capture e label pluck) (capture f label' pluck)
  | text (e f : Expr) : Alike (text e) (text f)
  /-- Conditions are alike whatever they are made of. -/
  | condition {e f : Expr} (he : e.isCondition = true) (hf : f.isCondition = true) : Alike e f
  | action (e f : Expr) (code code' : Text) : Alike (action e code) (action f code')

/-- Whether the members of two lists are alike, one by one. -/
inductive AllAlike : List Expr → List Expr → Prop where
  | nil : AllAlike [] []
  | cons {e f : Expr} {es fs : List Expr} (h : Alike e f) (hs : AllAlike es fs) :
      AllAlike (e :: es) (f :: fs)

end

/-! ## Conditions -/

theorem eq_of_isCondition {e : Expr} (h : e.isCondition = true) :
    (∃ operand negated code, e = lookahead operand negated code) ∨
      ∃ negated code, e = semantic negated code := by
  cases e with
  | lookahead operand negated code => exact .inl ⟨operand, negated, code, rfl⟩
  | semantic negated code => exact .inr ⟨negated, code, rfl⟩
  | _ => cases h

theorem valueType_of_isCondition {e : Expr} (h : e.isCondition = true) (fallback : Text) :
    e.valueType fallback = .undefined := by
  rcases eq_of_isCondition h with ⟨operand, negated, code, rfl⟩ | ⟨negated, code, rfl⟩ <;> rfl

theorem pureReference?_of_isCondition {e : Expr} (h : e.isCondition = true) :
    e.pureReference? = none := by
  rcases eq_of_isCondition h with ⟨operand, negated, code, rfl⟩ | ⟨negated, code, rfl⟩ <;> rfl

theorem isPlucked_of_isCondition {e : Expr} (h : e.isCondition = true) : e.isPlucked = false := by
  rcases eq_of_isCondition h with ⟨operand, negated, code, rfl⟩ | ⟨negated, code, rfl⟩ <;> rfl

/-! ## What alike expressions share -/

theorem Alike.isPlucked_eq {e f : Expr} (h : e.Alike f) : e.isPlucked = f.isPlucked := by
  cases h with
  | condition he hf => rw [isPlucked_of_isCondition he, isPlucked_of_isCondition hf]
  | capture _ _ _ pluck => cases pluck <;> rfl
  | _ => rfl

theorem pluckedTypes_cons (fallback : Text) (e : Expr) (es : List Expr) :
    pluckedTypes fallback (e :: es) =
      if e.isPlucked then e.valueType fallback :: pluckedTypes fallback es
      else pluckedTypes fallback es := by
  simp only [pluckedTypes_eq_map, List.filter_cons]
  split <;> rfl

mutual

/-- **Opaque parts have no effect on types.** The values of alike expressions have the same type. -/
theorem Alike.valueType_eq (fallback : Text) :
    ∀ {e f : Expr}, e.Alike f → e.valueType fallback = f.valueType fallback
  | _, _, .unknown => rfl
  | _, _, .literals _ => rfl
  | _, _, .anyCase _ _ => rfl
  | _, _, .charClass _ _ => rfl
  | _, _, .anyChar => rfl
  | _, _, .reference _ => rfl
  | _, _, .choice h => by simp only [valueType, h.valueTypes_eq fallback]
  | _, _, .sequence h => by simp only [valueType, h.pluckedTypes_eq fallback]
  | _, _, .repetition h _ _ => by simp only [valueType, h.valueType_eq fallback]
  | _, _, .optional h => by simp only [valueType, h.valueType_eq fallback]
  | _, _, .capture h _ _ _ => by simp only [valueType, h.valueType_eq fallback]
  | _, _, .text _ _ => rfl
  | _, _, .condition he hf => by
    rw [valueType_of_isCondition he, valueType_of_isCondition hf]
  | _, _, .action _ _ _ _ => rfl

theorem AllAlike.valueTypes_eq (fallback : Text) :
    ∀ {es fs : List Expr}, AllAlike es fs → valueTypes fallback es = valueTypes fallback fs
  | _, _, .nil => rfl
  | _, _, .cons h hs => by
    rw [valueTypes, valueTypes, h.valueType_eq fallback, hs.valueTypes_eq fallback]

theorem AllAlike.pluckedTypes_eq (fallback : Text) :
    ∀ {es fs : List Expr}, AllAlike es fs → pluckedTypes fallback es = pluckedTypes fallback fs
  | _, _, .nil => rfl
  | _, _, .cons h hs => by
    rw [pluckedTypes_cons, pluckedTypes_cons, h.isPlucked_eq, h.valueType_eq fallback,
      hs.pluckedTypes_eq fallback]

end

/-- A choice of one alternative is a bare reference where that alternative is, so the references of
alike choices are those of their alternatives. -/
theorem Alike.pureReference?_eq :
    ∀ {e f : Expr}, e.Alike f → e.pureReference? = f.pureReference?
  | _, _, .choice .nil => rfl
  | _, _, .choice (.cons h .nil) => by
    rw [pureReference?, pureReference?]
    exact h.pureReference?_eq
  | _, _, .choice (.cons _ (.cons _ _)) => rfl
  | _, _, .condition he hf => by
    rw [pureReference?_of_isCondition he, pureReference?_of_isCondition hf]
  | _, _, .reference _ => rfl
  | _, _, .unknown => rfl
  | _, _, .literals _ => rfl
  | _, _, .anyCase _ _ => rfl
  | _, _, .charClass _ _ => rfl
  | _, _, .anyChar => rfl
  | _, _, .sequence _ => rfl
  | _, _, .repetition _ _ _ => rfl
  | _, _, .optional _ => rfl
  | _, _, .capture _ _ _ _ => rfl
  | _, _, .text _ _ => rfl
  | _, _, .action _ _ _ _ => rfl

end RuleTypes.Expr
