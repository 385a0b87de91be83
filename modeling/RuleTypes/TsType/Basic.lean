import RuleTypes.Text.CodePoint

/-!
# TypeScript types

The types that rules get. A reference names a rule, not a declaration: the identifier is put in
when the type is written, so types do not depend on how declarations are called.
-/

namespace RuleTypes

inductive TsType where
  /-- A type of no particular kind, which cannot be written. -/
  | unwritten
  | keyword (name : Text)
  /-- The type of one string. -/
  | literal (value : Text)
  /-- The type declared for a rule. -/
  | ref (rule : Text)
  /-- A type given as text and taken as it is. -/
  | raw (text : Text)
  | array (element : TsType)
  | union (members : List TsType)

namespace TsType

def string : TsType := .keyword "string"

def null : TsType := .keyword "null"

def undefined : TsType := .keyword "undefined"

/-- The type without values. -/
def never : TsType := .keyword "never"

/-! ## Equality -/

mutual

/-- Whether two types are of one kind with equal fields. -/
def same : TsType → TsType → Bool
  | unwritten, unwritten => true
  | keyword n, keyword m => n = m
  | literal v, literal w => v = w
  | ref r, ref s => r = s
  | raw t, raw u => t = u
  | array t, array u => same t u
  | union ts, union us => sameList ts us
  | _, _ => false

/-- Whether two lists of types are equal member by member. -/
def sameList : List TsType → List TsType → Bool
  | [], [] => true
  | t :: ts, u :: us => same t u && sameList ts us
  | _, _ => false

end

mutual

theorem same_iff : ∀ t u : TsType, same t u = true ↔ t = u
  | unwritten, u => by cases u <;> simp [same]
  | keyword _, u => by cases u <;> simp [same]
  | literal _, u => by cases u <;> simp [same]
  | ref _, u => by cases u <;> simp [same]
  | raw _, u => by cases u <;> simp [same]
  | array t, u => by cases u <;> simp [same, same_iff t]
  | union ts, u => by cases u <;> simp [same, sameList_iff ts]

theorem sameList_iff : ∀ ts us : List TsType, sameList ts us = true ↔ ts = us
  | [], us => by cases us <;> simp [sameList]
  | t :: ts, us => by cases us <;> simp [sameList, same_iff t, sameList_iff ts]

end

instance : DecidableEq TsType := fun t u => decidable_of_iff _ (same_iff t u)

end TsType

end RuleTypes
