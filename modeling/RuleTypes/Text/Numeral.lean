import RuleTypes.Text.CodePoint

/-!
# Numerals

Decimal and hexadecimal notation of numbers, written and read. Hexadecimal digits are written in
lower case and read in either. An integer is read from a limited number of decimal digits only.
-/

namespace RuleTypes

namespace CodePoint

/-- The value of a hexadecimal digit. -/
def hexDigit? (c : CodePoint) : Option Nat :=
  if c.isDigit then some (c.toNat - '0'.toNat)
  else if c.inRange 'a' 'f' then some (c.toNat - 'a'.toNat + 10)
  else if c.inRange 'A' 'F' then some (c.toNat - 'A'.toNat + 10)
  else none

def isHexDigit (c : CodePoint) : Bool := c.hexDigit?.isSome

end CodePoint

namespace Numeral

/-- The decimal numeral of `n`, without leading zeros. -/
def decimal (n : Nat) : Text := (Nat.toDigits 10 n).map CodePoint.ofChar

/-- The decimal numeral of an integer: a minus sign before a negative one. -/
def signed : Int → Text
  | .ofNat n => decimal n
  | .negSucc n => '-' :: decimal (n + 1)

/-- The hexadecimal numeral of `n`, filled up with zeros to `width` digits. -/
def hex (width n : Nat) : Text :=
  let digits := (Nat.toDigits 16 n).map CodePoint.ofChar
  List.replicate (width - digits.length) (CodePoint.ofChar '0') ++ digits

/-- The number that a list of digit values denotes, most significant first. -/
def ofDigits (base : Nat) (digits : List Nat) : Nat :=
  digits.foldl (fun n d => n * base + d) 0

/-- Reads decimal digits; the text must hold nothing else. No digits are zero. -/
def readDecimal (t : Text) : Nat := ofDigits 10 (t.map fun c => c.toNat - '0'.toNat)

/-- The most decimal digits that an integer is read from, leading zeros among them. -/
def maxDigits : Nat := 4300

/-- Reads the digits of an integer, unless there are too many. -/
def readDecimal? (digits : Text) : Option Nat :=
  if digits.length ≤ maxDigits then some (readDecimal digits) else none

/-- Reads a hexadecimal numeral: one digit or more and nothing else. -/
def readHex? (t : Text) : Option Nat :=
  if t.isEmpty then none else (t.mapM CodePoint.hexDigit?).map (ofDigits 16)

end Numeral

end RuleTypes
