import RuleTypes.Log
import RuleTypes.Source.Lowering
import RuleTypes.Source.MetaGrammar

/-!
# Reading grammar sources

`Grammar.parse` reads a source text into a grammar. Four things can be wrong, and the first of them
in this order is reported: the text is no sequence of rules, a string literal or a number cannot be
decoded, a start rule does not exist, two rules have one name.

The rules of a text always match its start, so a syntax error lies right behind the last complete
rule and the blanks after it.
-/

namespace RuleTypes

namespace Source

/-- The line of a position, from one on: only line feeds end lines. -/
def lineAt (s : Text) (position : Nat) : Nat :=
  1 + (s.take position).count (CodePoint.ofChar '\n')

/-- The column of a position, from one on. -/
def columnAt (s : Text) (position : Nat) : Nat :=
  1 + ((s.take position).reverse.takeWhile (· ≠ CodePoint.ofChar '\n')).length

/-- The number of code points that a syntax error quotes. -/
def snippetLength : Nat := 20

/-- The error of a text that goes on behind its last rule. -/
def unexpectedInput (s : Text) (position : Nat) : Error :=
  .syntaxError ("unexpected input " ++ Text.quoted ((s.drop position).take snippetLength))
    (lineAt s position) (columnAt s position)

/-- The rules of a source text, as written. -/
def readRules (s : Text) : Except Error (List Rule) :=
  match Nonterminal.scan .grammar s with
  | .ok rules _ [] => .ok rules
  | .ok _ width _ => .error (unexpectedInput s width)
  | .fail => .error (unexpectedInput s 0)
  | .outOfFuel => .error (unexpectedInput s 0)

end Source

/-- The name that stands for all rules in a list of start rules. -/
def everyRule : Text := "*"

/-- Flags the start rules. Unless every rule is asked for, each name must be that of a rule. -/
def flagStartRules (startRules : List Text) (rules : List Rule) : Except Error (List Rule) :=
  if everyRule ∈ startRules then .ok (rules.map fun rule => { rule with start := true })
  else
    match startRules.find? (· ∉ rules.map Rule.name) with
    | some name => .error (.undefinedRule name "allowed start rules")
    | none => .ok (rules.map fun rule => { rule with start := rule.name ∈ startRules })

/-- The grammar of a source text. The start rules are those named, or every rule where a star is
among the names; no names stand for the first rule. -/
def Grammar.parse (source : Text) (startRules : List Text) : Except Failure Grammar := do
  let written ← (Source.readRules source).mapError .error
  let rules ← (written.mapM Source.Rule.lower).mapError .decoding
  let flagged ← (flagStartRules startRules rules).mapError .error
  (Grammar.ofRules flagged).mapError .error

/-- What is logged when a source has been read. -/
def Grammar.parsedRecord (g : Grammar) : Log.Record :=
  Log.debug .source ("Parsed grammar with " ++ Numeral.decimal g.size ++ " rules")

end RuleTypes
