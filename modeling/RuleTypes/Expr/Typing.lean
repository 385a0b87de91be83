import RuleTypes.Expr.Basic
import RuleTypes.TsType.Union

/-!
# The type of an expression's value

`Expr.valueType fallback e` is read off the shape of `e`. References stay opaque. A value that
depends on code, and a sequence of which not exactly one element is plucked, gets the fallback type.
-/

namespace RuleTypes.Expr

open TsType

mutual

/-- The type of the value of a match. -/
def valueType (fallback : Text) : Expr → TsType
  | unknown => raw fallback
  | literals values ignoreCase =>
    if ignoreCase then string else join (values.map literal)
  | charClass _ => string
  | anyChar => string
  | reference rule => ref rule
  | choice alternatives => join (valueTypes fallback alternatives)
  | sequence elements =>
    match pluckedTypes fallback elements with
    | [t] => t
    | _ => raw fallback
  | repetition operand _ => array (valueType fallback operand)
  | optional operand => join [valueType fallback operand, null]
  | capture operand _ _ => valueType fallback operand
  | text _ => string
  | lookahead _ _ _ => undefined
  | semantic _ _ => undefined
  | action _ _ => raw fallback

/-- The types of several expressions. -/
def valueTypes (fallback : Text) : List Expr → List TsType
  | [] => []
  | e :: es => valueType fallback e :: valueTypes fallback es

/-- The types of the plucked elements among several. -/
def pluckedTypes (fallback : Text) : List Expr → List TsType
  | [] => []
  | capture e _ true :: es => valueType fallback e :: pluckedTypes fallback es
  | _ :: es => pluckedTypes fallback es

end

theorem valueTypes_eq_map (fallback : Text) (es : List Expr) :
    valueTypes fallback es = es.map (valueType fallback) := by
  induction es with
  | nil => rfl
  | cons e es ih => simp [valueTypes, ih]

end RuleTypes.Expr
