import RuleTypes.Dictionary
import RuleTypes.Grammar.Basic

/-!
# Overrides

A caller may give the type of a rule as text. Such a rule is explicit: the text is taken as it is,
neither read nor checked. The other rules are pending. Names that no rule bears are unmatched and
have no effect.
-/

namespace RuleTypes

/-- Type texts by rule name. -/
abbrev Overrides := Dictionary Text

namespace Overrides

/-- The given type of a rule of the grammar. -/
def explicit? (o : Overrides) (g : Grammar) (rule : Text) : Option Text :=
  if g.contains rule then o.get? rule else none

def isExplicit (o : Overrides) (g : Grammar) (rule : Text) : Bool := (o.explicit? g rule).isSome

/-- The explicit rules with their texts, in rule order. -/
def explicit (o : Overrides) (g : Grammar) : List (Text × Text) :=
  g.names.filterMap fun name => (o.get? name).map (name, ·)

/-- The rules that are not explicit, in rule order. -/
def pending (o : Overrides) (g : Grammar) : List Text := g.names.filter fun name => !o.contains name

/-- The names that no rule bears, in the order in which they were given. -/
def unmatched (o : Overrides) (g : Grammar) : List Text := o.keys.filter fun key => !g.contains key

end Overrides

end RuleTypes
