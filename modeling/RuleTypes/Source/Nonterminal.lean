import RuleTypes.Source.Phrase

/-!
# The nonterminals of grammar sources

Each nonterminal has a name, by which it can be asked for, and a type of values.
-/

namespace RuleTypes.Source

inductive Nonterminal where
  | grammar
  | initializer
  | rule
  | displayName
  | choice
  | actionExpr
  | action
  | sequence
  | labeled
  | pluck
  | label
  | prefixed
  | semanticPredicate
  | operatorExpr
  | prefixSign
  | suffixed
  | suffix
  | operatorSuffix
  | repeatRange
  | rangeBounds
  | rangeBound
  | primary
  | literal
  | ignoreCase
  | charClass
  | anyChar
  | ruleRef
  | ruleHead
  | group
  | codeBlock
  | codeBody
  | stringLiteral
  | identifier
  | blank
deriving DecidableEq, Repr

namespace Nonterminal

/-- The name of a nonterminal. -/
def name : Nonterminal → Text
  | .grammar => "grammar"
  | .initializer => "initializer"
  | .rule => "rule"
  | .displayName => "display_name"
  | .choice => "choice"
  | .actionExpr => "action_expr"
  | .action => "action"
  | .sequence => "sequence"
  | .labeled => "labeled"
  | .pluck => "pluck"
  | .label => "label"
  | .prefixed => "prefixed"
  | .semanticPredicate => "semantic_predicate"
  | .operatorExpr => "operator_expr"
  | .prefixSign => "prefix"
  | .suffixed => "suffixed"
  | .suffix => "suffix"
  | .operatorSuffix => "operator_suffix"
  | .repeatRange => "repeat_range"
  | .rangeBounds => "range_bounds"
  | .rangeBound => "range_bound"
  | .primary => "primary"
  | .literal => "literal"
  | .ignoreCase => "ignore_case"
  | .charClass => "char_class"
  | .anyChar => "any_char"
  | .ruleRef => "rule_ref"
  | .ruleHead => "rule_head"
  | .group => "group"
  | .codeBlock => "code_block"
  | .codeBody => "code_body"
  | .stringLiteral => "string_literal"
  | .identifier => "identifier"
  | .blank => "_"

/-- Every nonterminal. -/
def all : List Nonterminal :=
  [.grammar, .initializer, .rule, .displayName, .choice, .actionExpr, .action, .sequence,
    .labeled, .pluck, .label, .prefixed, .semanticPredicate, .operatorExpr, .prefixSign,
    .suffixed, .suffix, .operatorSuffix, .repeatRange, .rangeBounds, .rangeBound, .primary,
    .literal, .ignoreCase, .charClass, .anyChar, .ruleRef, .ruleHead, .group, .codeBlock,
    .codeBody, .stringLiteral, .identifier, .blank]

/-- The nonterminal called `name`. -/
def ofName? (name : Text) : Option Nonterminal := all.find? (·.name = name)

/-- The type of what a match of a nonterminal gives. -/
abbrev Value : Nonterminal → Type
  | .grammar => List Rule
  | .initializer => Unit
  | .rule => Rule
  | .displayName => Text
  | .choice => Phrase .choice
  | .actionExpr => Phrase .alternative
  | .action => Text
  | .sequence => Phrase .sequence
  | .labeled => Phrase .element
  | .pluck => Unit
  | .label => Text
  | .prefixed => Phrase .operand
  | .semanticPredicate => Phrase .operand
  | .operatorExpr => Phrase .operand
  | .prefixSign => Sign
  | .suffixed => Phrase .primary × Phrase .suffix
  | .suffix => Phrase .suffix
  | .operatorSuffix => Phrase .suffix
  | .repeatRange => Phrase .suffix
  | .rangeBounds => Bounds
  | .rangeBound => Option Text
  | .primary => Phrase .primary
  | .literal => Phrase .primary
  | .ignoreCase => Unit
  | .charClass => Phrase .primary
  | .anyChar => Phrase .primary
  | .ruleRef => Phrase .primary
  | .ruleHead => Unit
  | .group => Phrase .primary
  | .codeBlock => Text
  | .codeBody => Unit
  | .stringLiteral => Text
  | .identifier => Text
  | .blank => Unit

end Nonterminal

end RuleTypes.Source
