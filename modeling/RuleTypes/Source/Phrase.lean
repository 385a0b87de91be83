import RuleTypes.Text.CodePoint

/-!
# Written phrases

The syntax of a grammar source, with blanks and comments left out and nothing simplified: groups,
choices of one alternative and the delimiters of ranges are all still there. Bodies of string
literals are kept as written, with their escapes, and numbers with all their digits.

The kinds of phrases are one inductive family, so a statement about all phrases is one induction.
-/

namespace RuleTypes.Source

/-- The kinds of phrases. -/
inductive Kind where
  | choice
  | alternative
  | sequence
  | element
  | operand
  | primary
  | suffix
deriving DecidableEq, Repr

/-- The sign before an operand: `$`, `&` or `!`. -/
inductive Sign where
  | text
  | positive
  | negative
deriving DecidableEq, Repr

/-- The bounds of a range: the digits of those that are numbers. A bound that is a name or code says
as little as one that is left out. -/
structure Bounds where
  minimum : Option Text := none
  maximum : Option Text := none
deriving DecidableEq

inductive Phrase : Kind → Type where
  /-- A choice of one alternative, or the last alternative of a choice. -/
  | last (alternative : Phrase .alternative) : Phrase .choice
  /-- An alternative and the ones behind the slash. -/
  | or (alternative : Phrase .alternative) (others : Phrase .choice) : Phrase .choice
  /-- A sequence and the code of its action. -/
  | alternative (elements : Phrase .sequence) (action : Option Text) : Phrase .alternative
  /-- A sequence of one element, or the last element of a sequence. -/
  | one (element : Phrase .element) : Phrase .sequence
  | cons (element : Phrase .element) (others : Phrase .sequence) : Phrase .sequence
  /-- An operand, plucked and labeled or not. -/
  | element (pluck : Bool) (label : Option Text) (operand : Phrase .operand) : Phrase .element
  /-- A predicate that runs code. -/
  | semantic (negated : Bool) (code : Text) : Phrase .operand
  | operand (sign : Option Sign) (primary : Phrase .primary) (suffix : Phrase .suffix) :
      Phrase .operand
  | literal (body : Text) (ignoreCase : Bool) : Phrase .primary
  | charClass (pattern : Text) : Phrase .primary
  | anyChar : Phrase .primary
  | reference (rule : Text) : Phrase .primary
  | group (choice : Phrase .choice) : Phrase .primary
  /-- No suffix. -/
  | bare : Phrase .suffix
  | optional : Phrase .suffix
  | star : Phrase .suffix
  | plus : Phrase .suffix
  /-- A range between bars. -/
  | range (bounds : Bounds) : Phrase .suffix
  /-- A range with a delimiter between the matches. -/
  | separated (bounds : Bounds) (delimiter : Phrase .choice) : Phrase .suffix

namespace Phrase

/-- The choice of a first alternative and the others. -/
def ofAlternatives (first : Phrase .alternative) : List (Phrase .alternative) → Phrase .choice
  | [] => .last first
  | second :: others => .or first (ofAlternatives second others)

/-- The sequence of a first element and the others. -/
def ofElements (first : Phrase .element) : List (Phrase .element) → Phrase .sequence
  | [] => .one first
  | second :: others => .cons first (ofElements second others)

/-- The rule names that are referred to, in the order in which they are written. -/
def references : {k : Kind} → Phrase k → List Text
  | _, .last a => a.references
  | _, .or a others => a.references ++ others.references
  | _, .alternative es _ => es.references
  | _, .one e => e.references
  | _, .cons e others => e.references ++ others.references
  | _, .element _ _ e => e.references
  | _, .semantic _ _ => []
  | _, .operand _ primary suffix => primary.references ++ suffix.references
  | _, .literal _ _ => []
  | _, .charClass _ => []
  | _, .anyChar => []
  | _, .reference rule => [rule]
  | _, .group choice => choice.references
  | _, .bare => []
  | _, .optional => []
  | _, .star => []
  | _, .plus => []
  | _, .range _ => []
  | _, .separated _ delimiter => delimiter.references

end Phrase

/-- A rule as written. -/
structure Rule where
  name : Text
  /-- The body of the display name's literal, with its escapes. -/
  displayName : Option Text
  body : Phrase .choice

end RuleTypes.Source
