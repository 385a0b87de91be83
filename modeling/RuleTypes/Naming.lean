import RuleTypes.Dictionary
import RuleTypes.Text.Numeral

/-!
# Identifiers of declarations

`typeName` turns a rule name into upper camel case: the runs of ASCII letters and digits, each with
its first letter capitalised, one after the other. A name that would be empty or begin with a digit
stays as it is.

A `Namer` gives every rule its identifier, in rule order. An identifier that is taken already gets
the first number from two on that makes it new.
-/

namespace RuleTypes

/-- The name with its first letter in upper case. -/
def capitalize : Text → Text
  | [] => []
  | c :: rest => c.toUpper :: rest

/-- The type name of a rule. -/
def typeName (rule : Text) : Text :=
  let name := (Text.pieces (!·.isAlphanumeric) rule).flatMap capitalize
  match name with
  | [] => rule
  | c :: _ => if c.isLetter then name else rule

/-- The first of `base`, `base2`, `base3`, … that is not taken. Among one candidate more than there
are taken names one is free. -/
def freshName (taken : List Text) (base : Text) : Text :=
  let numbered := (List.range taken.length).map fun k => base ++ Numeral.decimal (k + 2)
  ((base :: numbered).find? (· ∉ taken)).getD base

/-- The identifiers of rules. -/
structure Namer where
  identifiers : Dictionary Text

namespace Namer

/-- Gives the next rule its identifier; `taken` are the identifiers given so far. -/
def assign (camelCase : Bool) (state : List Text × Dictionary Text) (rule : Text) :
    List Text × Dictionary Text :=
  let (taken, identifiers) := state
  let name := freshName taken (if camelCase then typeName rule else rule)
  (name :: taken, identifiers.insert rule name)

/-- The identifiers of rules, given in this order. A rule that comes again gets a second one, which
replaces the first. -/
def ofRules (camelCase : Bool) (rules : List Text) : Namer :=
  ⟨(rules.foldl (assign camelCase) ([], .empty)).2⟩

/-- The identifier of a rule. -/
def get? (n : Namer) (rule : Text) : Option Text := n.identifiers.get? rule

/-- The identifier of a rule; a name that no rule bears stands for itself. -/
def nameOf (n : Namer) (rule : Text) : Text := (n.get? rule).getD rule

end Namer

end RuleTypes
