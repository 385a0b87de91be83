import RuleTypes.Peg.Basic
import RuleTypes.Source.Nonterminal
import RuleTypes.Text.Blank

/-!
# The grammar of grammar sources

`body r` is the parsing expression of nonterminal `r`. Blanks and comments stand behind a token
and belong to it; a rule name is told from a reference by what follows it (`ruleHead`), so rules
need no terminator; code is matched by its braces alone.

* `Nonterminal.scan` matches a nonterminal at the start of a text, with as much fuel as the text
  can need.
-/

namespace RuleTypes.Source

/-- A parsing expression over the nonterminals of grammar sources. -/
abbrev Expression : Type → Type 1 := Peg Nonterminal.Value

namespace Expression

variable {α : Type}

/-- The expression without its value. -/
def skip (e : Expression α) : Expression Unit := (fun _ => ()) <$> e

/-- Any code point. -/
def anything : Expression CodePoint := .satisfy fun _ => true

/-- Any code point but `c`. -/
def butNot (c : Char) : Expression CodePoint := .satisfy (· ≠ c)

/-- The nonterminal `r`. -/
def rule (r : Nonterminal) : Expression r.Value := .call r

/-- Blanks and comments. -/
def blank : Expression Unit := rule .blank

/-- The character `c` and the blanks behind it. -/
def token (c : Char) : Expression CodePoint := .char c <* blank

/-- Two characters in a row. -/
def twice (c d : Char) : Expression CodePoint := .char c *> .char d

/-- A backslash and the code point behind it, which it takes the meaning from. -/
def escaped : Expression CodePoint := .char '\\' *> anything

/-- A string literal in the quotes `q`; its value is what stands between them. -/
def quoted (q : Char) : Expression Text :=
  .char q *> .source (.star (.satisfy (fun c => c ≠ q && c ≠ '\\') <|> escaped)) <* .char q

/-- The digits of a bound, if there is one and it is a number. -/
def bound : Expression (Option Text) := Option.join <$> .opt (rule .rangeBound)

/-- The letter `i` where no word goes on. -/
def flag : Expression Unit := skip (.char 'i' <* .notAt (.satisfy CodePoint.isWord))

end Expression

open Expression

/-- The parsing expression of each nonterminal. -/
def body : (r : Nonterminal) → Expression r.Value
  | .grammar => blank *> .star (rule .initializer) *> .star (rule .rule)
  | .initializer => skip (rule .codeBlock <* blank <* .opt (token ';'))
  | .rule =>
    (fun (name, displayName, body) => ⟨name, displayName, body⟩) <$>
      .seq (rule .identifier <* blank)
        (.seq (.opt (rule .displayName) <* token '=') (rule .choice <* .opt (token ';')))
  | .displayName => rule .stringLiteral <* blank
  | .choice =>
    (fun (first, others) => .ofAlternatives first others) <$>
      .seq (rule .actionExpr) (.star (token '/' *> rule .actionExpr))
  | .actionExpr =>
    (fun (elements, action) => .alternative elements action) <$>
      .seq (rule .sequence) (.opt (rule .action))
  | .action => rule .codeBlock <* blank
  | .sequence =>
    (fun (first, others) => .ofElements first others) <$>
      .seq (rule .labeled) (.star (rule .labeled))
  | .labeled =>
    (fun (pluck, label, operand) => .element pluck.isSome label operand) <$>
      .seq (.opt (rule .pluck)) (.seq (.opt (rule .label)) (rule .prefixed))
  | .pluck => skip (token '@')
  | .label => rule .identifier <* blank <* token ':'
  | .prefixed => rule .semanticPredicate <|> rule .operatorExpr
  | .semanticPredicate =>
    (fun (negated, code) => .semantic negated code) <$>
      .seq (((fun _ => false) <$> .char '&' <|> (fun _ => true) <$> .char '!') <* blank)
        (rule .codeBlock <* blank)
  | .operatorExpr =>
    (fun (sign, primary, suffix) => .operand sign primary suffix) <$>
      .seq (.opt (rule .prefixSign)) (rule .suffixed)
  | .prefixSign =>
    ((fun _ => .text) <$> .char '$' <|> (fun _ => .positive) <$> .char '&' <|>
      (fun _ => .negative) <$> .char '!') <* blank
  | .suffixed =>
    (fun (primary, suffix) => (primary, suffix.getD .bare)) <$>
      .seq (rule .primary) (.opt (rule .suffix))
  | .suffix => rule .operatorSuffix <|> rule .repeatRange
  | .operatorSuffix =>
    ((fun _ => .optional) <$> .char '?' <|> (fun _ => .star) <$> .char '*' <|>
      (fun _ => .plus) <$> .char '+') <* blank
  | .repeatRange =>
    (fun (bounds, delimiter) => delimiter.elim (.range bounds) (.separated bounds)) <$>
      .seq (token '|' *> rule .rangeBounds)
        (.opt (token ',' *> rule .choice) <* token '|')
  | .rangeBounds =>
    (fun (minimum, maximum) => ⟨minimum, maximum.join⟩) <$>
      .seq (bound <* blank) (.opt (twice '.' '.' *> blank *> bound <* blank))
  | .rangeBound =>
    some <$> .source (.plus (.satisfy CodePoint.isDigit)) <|>
      (fun _ => none) <$> rule .identifier <|> (fun _ => none) <$> rule .codeBlock
  | .primary =>
    rule .literal <|> rule .charClass <|> rule .anyChar <|> rule .ruleRef <|> rule .group
  | .literal =>
    (fun (body, ignoreCase) => .literal body ignoreCase.isSome) <$>
      .seq (rule .stringLiteral) (.opt (rule .ignoreCase) <* blank)
  | .ignoreCase => flag
  | .charClass =>
    .charClass <$> .source (.char '[' *>
      .star (.satisfy (fun c => c ≠ ']' && c ≠ '\\') <|> escaped) *> .char ']' *> .opt flag) <* blank
  | .anyChar => (fun _ => .anyChar) <$> token '.'
  | .ruleRef => .reference <$> (rule .identifier <* blank <* .notAt (rule .ruleHead))
  | .ruleHead => skip (.opt (rule .displayName) *> .char '=')
  | .group => .group <$> (token '(' *> rule .choice <* token ')')
  | .codeBlock => .source (.char '{' *> rule .codeBody *> .char '}')
  | .codeBody =>
    skip (.star (skip (.plus (.satisfy fun c => c ≠ '{' && c ≠ '}')) <|> skip (rule .codeBlock)))
  | .stringLiteral => quoted '"' <|> quoted '\''
  | .identifier =>
    .source (.satisfy CodePoint.isWordStart *> .star (.satisfy CodePoint.isWord))
  | .blank =>
    skip (.star (skip (.satisfy CodePoint.isSpace) <|>
      twice '/' '/' *> skip (.star (butNot '\n')) <|>
      twice '/' '*' *> skip (.star (.notAt (twice '*' '/') *> anything) *> twice '*' '/')))

namespace Nonterminal

/-- Enough fuel to match any nonterminal at the start of `s`: between two code points no
nonterminal is entered twice. -/
def fuelFor (s : Text) : Nat := all.length * (s.length + 1)

/-- Matches a nonterminal at the start of `s`. -/
def scan (r : Nonterminal) (s : Text) : Outcome r.Value := Peg.matchRule body (fuelFor s) r s

end Nonterminal

end RuleTypes.Source
