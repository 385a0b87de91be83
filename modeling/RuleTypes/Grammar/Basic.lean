import RuleTypes.Error
import RuleTypes.Expr.Traversal

/-!
# Grammars

A grammar is a list of rules with distinct names, in the order of their declaration.

* `Grammar.ofRules` checks the names.
* `Grammar.startRules` are the rules flagged as such, or the first rule.
* `Grammar.danglingReference?` finds the first reference to a rule that does not exist.
-/

namespace RuleTypes

/-- A named rule. -/
structure Rule where
  name : Text
  body : Expr
  start : Bool := false
  displayName : Option Text := none

/-- Rules with distinct names. -/
structure Grammar where
  rules : List Rule
  nodup : (rules.map Rule.name).Nodup

/-- The first name that stands in `seen` or earlier in the list. -/
def firstRepeated? (seen : List Text) : List Text → Option Text
  | [] => none
  | name :: names => if name ∈ seen then some name else firstRepeated? (name :: seen) names

theorem firstRepeated?_eq_none_iff {seen names : List Text} :
    firstRepeated? seen names = none ↔ names.Nodup ∧ ∀ n ∈ names, n ∉ seen := by
  induction names generalizing seen with
  | nil => simp [firstRepeated?]
  | cons name names ih =>
    simp only [firstRepeated?, List.nodup_cons, List.mem_cons, forall_eq_or_imp]
    split
    · rename_i h; simp [h]
    · rename_i h
      rw [ih]
      constructor
      · rintro ⟨hn, hs⟩
        refine ⟨⟨fun hm => ?_, hn⟩, h, fun n hm => ?_⟩
        · exact hs name hm (by simp)
        · exact fun hm' => hs n hm (by simp [hm'])
      · rintro ⟨⟨hm, hn⟩, -, hs⟩
        refine ⟨hn, fun n hn' => ?_⟩
        simp only [List.mem_cons, not_or]
        exact ⟨fun he => hm (he ▸ hn'), hs n hn'⟩

namespace Grammar

/-- The grammar of these rules, unless two of them have one name. -/
def ofRules (rules : List Rule) : Except Error Grammar :=
  match h : firstRepeated? [] (rules.map Rule.name) with
  | some name => .error (.duplicateRule name)
  | none => .ok ⟨rules, (firstRepeated?_eq_none_iff.mp h).1⟩

/-- The names of the rules, in order. -/
def names (g : Grammar) : List Text := g.rules.map Rule.name

def size (g : Grammar) : Nat := g.rules.length

/-- The rule of this name. -/
def rule? (g : Grammar) (name : Text) : Option Rule := g.rules.find? (·.name = name)

def contains (g : Grammar) (name : Text) : Bool := name ∈ g.names

/-- The exported rules: those flagged as start rules, or the first rule when none is flagged. -/
def startRules (g : Grammar) : List Text :=
  let flagged := g.rules.filter Rule.start
  (if flagged.isEmpty then g.rules.take 1 else flagged).map Rule.name

/-- The first reference to a rule that does not exist, with the rule that it stands in. -/
def danglingReference? (g : Grammar) : Option (Text × Text) :=
  g.rules.findSome? fun rule =>
    (rule.body.references.find? fun target => !g.contains target).map (·, rule.name)

/-- Refuses a grammar with a dangling reference. -/
def checkReferences (g : Grammar) : Except Error Unit :=
  match g.danglingReference? with
  | some (target, rule) => .error (.undefinedRule target rule)
  | none => .ok ()

theorem mem_names_iff {g : Grammar} {name : Text} :
    name ∈ g.names ↔ (g.rule? name).isSome = true := by
  simp only [names, rule?, List.mem_map, List.find?_isSome, decide_eq_true_eq]

theorem name_of_rule? {g : Grammar} {name : Text} {rule : Rule} (h : g.rule? name = some rule) :
    rule.name = name := by
  simpa using List.find?_some h

end Grammar

end RuleTypes
