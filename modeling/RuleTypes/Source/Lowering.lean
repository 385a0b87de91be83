import RuleTypes.Distinct
import RuleTypes.Error
import RuleTypes.Grammar.Basic
import RuleTypes.Source.Phrase

/-!
# From phrases to expressions

A written phrase is simplified to the expression of a rule: groups vanish, a sequence of one element
and a choice of one alternative are that element and that alternative, and a choice of nothing but
case-sensitive literals is one set of literals. Of a range only the guaranteed number of matches
counts, and only whether it is zero; the other bound is read, the delimiter is decoded, and both are
dropped.

Lowering fails at the first string literal that cannot be decoded or bound that cannot be read, in
the order in which they are written, display names and delimiters included.
-/

namespace RuleTypes

/-- The values of a set of case-sensitive literals. -/
def Expr.literalValues? : Expr → Option (List Text)
  | .literals values false => some values
  | _ => none

/-- The choice between alternatives. -/
def Expr.ofAlternatives : List Expr → Expr
  | [e] => e
  | es =>
    match es.mapM Expr.literalValues? with
    | some values => .literals (distinct values.flatten) false
    | none => .choice es

/-- The sequence of elements. -/
def Expr.ofElements : List Expr → Expr
  | [e] => e
  | es => .sequence es

namespace Source

/-- An operand behind its sign. -/
def Sign.apply : Option Sign → Expr → Expr
  | none, e => e
  | some .text, e => .text e
  | some .positive, e => .lookahead e false none
  | some .negative, e => .lookahead e true none

/-- The number that the digits of a bound denote. -/
def readBound (digits : Text) : Except DecodingError Nat :=
  (Numeral.readDecimal? digits).elim (.error .numeral) .ok

/-- The number of matches that bounds guarantee: none without a minimum. The maximum does not count,
but it is read. -/
def Bounds.guaranteed (bounds : Bounds) : Except DecodingError Nat := do
  let minimum ← bounds.minimum.mapM readBound
  let _ ← bounds.maximum.mapM readBound
  return minimum.getD 0

/-- Decodes the body of a string literal. -/
def decodeLiteral (body : Text) : Except DecodingError Text := (unescape body).mapError .escape

/-- What a phrase becomes: a choice and a sequence their parts, a suffix what it does to the
primary before it, and any other phrase an expression. -/
abbrev Lowered : Kind → Type
  | .choice => List Expr
  | .alternative => Expr
  | .sequence => List Expr
  | .element => Expr
  | .operand => Expr
  | .primary => Expr
  | .suffix => Expr → Expr

/-- Decodes and simplifies a phrase. -/
def Phrase.lower : {k : Kind} → Phrase k → Except DecodingError (Lowered k)
  | _, .last a => do return [← a.lower]
  | _, .or a others => do
    let e ← a.lower
    let es ← others.lower
    return e :: es
  | _, .alternative elements action => do
    let e := Expr.ofElements (← elements.lower)
    return action.elim e (Expr.action e)
  | _, .one a => do return [← a.lower]
  | _, .cons a others => do
    let e ← a.lower
    let es ← others.lower
    return e :: es
  | _, .element pluck label a => do
    let e ← a.lower
    return if pluck || label.isSome then .capture e label pluck else e
  | _, .semantic negated code => return .semantic negated (some code)
  | _, .operand sign primary suffix => do
    let e ← primary.lower
    let wrap ← suffix.lower
    return Sign.apply sign (wrap e)
  | _, .literal body ignoreCase => do return .literals [← decodeLiteral body] ignoreCase
  | _, .charClass pattern => return .charClass pattern
  | _, .anyChar => return .anyChar
  | _, .reference rule => return .reference rule
  | _, .group choice => do return Expr.ofAlternatives (← choice.lower)
  | _, .bare => return id
  | _, .optional => return Expr.optional
  | _, .star => return (Expr.repetition · false)
  | _, .plus => return (Expr.repetition · true)
  | _, .range bounds => do
    let guaranteed ← bounds.guaranteed
    return (Expr.repetition · (0 < guaranteed))
  | _, .separated bounds delimiter => do
    let guaranteed ← bounds.guaranteed
    let _ ← delimiter.lower
    return (Expr.repetition · (0 < guaranteed))

/-- Decodes and simplifies a rule. -/
def Rule.lower (rule : Rule) : Except DecodingError RuleTypes.Rule := do
  let displayName ← rule.displayName.mapM decodeLiteral
  let alternatives ← rule.body.lower
  return { name := rule.name, body := Expr.ofAlternatives alternatives, displayName }

end Source

end RuleTypes
