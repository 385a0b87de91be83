import RuleTypes.Text.Numeral
import RuleTypes.Text.Units

/-!
# String literals in ASCII

A literal is written between double quotes in printable ASCII: the quote and the backslash take a
backslash, five control characters have a letter, and every other UTF-16 unit outside the printable
ASCII range is written `\uhhhh`.
-/

namespace RuleTypes

/-- How one UTF-16 unit is written inside a literal. -/
def CodePoint.literal (c : CodePoint) : Text :=
  if c = '"' then ['\\', '"']
  else if c = '\\' then ['\\', '\\']
  else if c = '\n' then ['\\', 'n']
  else if c = '\r' then ['\\', 'r']
  else if c = '\t' then ['\\', 't']
  else if c = '\x0c' then ['\\', 'f']
  else if c = '\x08' then ['\\', 'b']
  else if c.inRange ' ' '~' then [c]
  else '\\' :: 'u' :: Numeral.hex 4 c.toNat

/-- The literal of a text, quotes included. -/
def Text.literal (t : Text) : Text :=
  "\"" ++ t.units16.flatMap CodePoint.literal ++ "\""

end RuleTypes
