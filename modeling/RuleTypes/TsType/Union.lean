import RuleTypes.Distinct
import RuleTypes.TsType.Basic

/-!
# Joining types

`TsType.join` is the smart constructor of unions: members that are unions themselves are opened one
level deep, repeats are dropped and the order of first occurrence is kept. No type at all gives
`never`, and one type is its own union.
-/

namespace RuleTypes.TsType

/-- The members of a union; any other type is its only part. -/
def parts : TsType → List TsType
  | union members => members
  | t => [t]

/-- The type of a list of distinct parts. -/
def ofParts : List TsType → TsType
  | [] => never
  | [t] => t
  | ts => union ts

/-- The union of several types. -/
def join (types : List TsType) : TsType := ofParts (distinct (types.flatMap parts))

end RuleTypes.TsType
