import RuleTypes.Text.Numeral
import RuleTypes.Text.Printable

/-!
# Quoted texts in messages

Messages quote names and snippets in single quotes, or in double quotes when the text holds single
quotes and no double ones. The quote in use and the backslash take a backslash; line feed, carriage
return and tab have a letter; other code points that are not printable are given by number, with
`\x`, `\u` or `\U` and two, four or eight digits.
-/

namespace RuleTypes

/-- How one code point is written between quotes. -/
def CodePoint.quoted (quote c : CodePoint) : Text :=
  if c = quote ∨ c = '\\' then ['\\', c]
  else if c = '\n' then ['\\', 'n']
  else if c = '\r' then ['\\', 'r']
  else if c = '\t' then ['\\', 't']
  else if c.isPrintable then [c]
  else if c.toNat < 0x100 then '\\' :: 'x' :: Numeral.hex 2 c.toNat
  else if c.toNat < 0x10000 then '\\' :: 'u' :: Numeral.hex 4 c.toNat
  else '\\' :: 'U' :: Numeral.hex 8 c.toNat

/-- The quote that `t` is written in. -/
def Text.quoteMark (t : Text) : CodePoint :=
  if CodePoint.ofChar '\'' ∈ t ∧ CodePoint.ofChar '"' ∉ t then '"' else '\''

/-- `t` between quotes. -/
def Text.quoted (t : Text) : Text :=
  t.quoteMark :: (t.flatMap (CodePoint.quoted t.quoteMark) ++ [t.quoteMark])

/-- Texts between quotes, in square brackets and separated by commas. -/
def Text.quotedList (ts : List Text) : Text :=
  "[" ++ Text.join ", " (ts.map Text.quoted) ++ "]"

end RuleTypes
