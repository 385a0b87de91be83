import RuleTypes.Text.Numeral

/-!
# Escapes in string literals

The body of a string literal is text in which a backslash begins an escape: `\xHH`, `\uHHHH` and
`\u{H…}` give a code point by number, a backslash before a line break continues the line and
vanishes with it, seven letters stand for control characters, and a backslash before anything else
gives that code point. A backslash at the very end stays.

* `unescape` decodes a body from left to right. It fails only at a `\u{H…}` whose number is no code
  point.
-/

namespace RuleTypes

/-- Why a `\u{H…}` escape cannot be decoded: its number is above `0x10FFFF`, and if it does not even
fit a signed 32-bit word the second case says so. -/
inductive EscapeError where
  | notACodePoint
  | notAWord
deriving DecidableEq, Repr

/-- What may follow a backslash. -/
inductive Escape where
  /-- A code point by number. -/
  | number (n : Nat)
  /-- A line break: nothing. -/
  | lineBreak
  /-- A single code point, which stands for itself unless it is a control letter. -/
  | single (c : CodePoint)
deriving DecidableEq

namespace Escape

/-- Line feed, carriage return, line separator and paragraph separator. -/
def isLineBreak (c : CodePoint) : Bool :=
  c = '\n' || c = '\r' || c.toNat = 0x2028 || c.toNat = 0x2029

/-- The number of a `u` escape: exactly four hexadecimal digits, or any number of them in braces.
The text begins behind the `u`; the second component is the number of code points taken. -/
def scanUnicode? (t : Text) : Option (Nat × Nat) :=
  match t with
  | [] => none
  | c :: rest =>
    if c = '{' then
      let digits := rest.takeWhile CodePoint.isHexDigit
      match Numeral.readHex? digits, rest.drop digits.length with
      | some n, close :: _ => if close = '}' then some (n, digits.length + 2) else none
      | _, _ => none
    else if 4 ≤ t.length then (Numeral.readHex? (t.take 4)).map (·, 4)
    else none

/-- The number of an `x` escape: exactly two hexadecimal digits. -/
def scanByte? (t : Text) : Option (Nat × Nat) :=
  if 2 ≤ t.length then (Numeral.readHex? (t.take 2)).map (·, 2) else none

/-- The escape at the start of `t`, the text behind a backslash, and the number of code points it
takes. An `x` or `u` without its digits stands for itself. -/
def scan? (t : Text) : Option (Escape × Nat) :=
  match t with
  | [] => none
  | c :: rest =>
    let numbered :=
      if c = 'x' then scanByte? rest else if c = 'u' then scanUnicode? rest else none
    match numbered with
    | some (n, taken) => some (.number n, taken + 1)
    | none =>
      if isLineBreak c then
        some (.lineBreak, if c = '\r' ∧ rest.head? = some (CodePoint.ofChar '\n') then 2 else 1)
      else some (.single c, 1)

/-- The control characters that a letter stands for. -/
def controls : List (CodePoint × CodePoint) :=
  [('n', '\n'), ('r', '\r'), ('t', '\t'), ('v', '\x0b'), ('f', '\x0c'), ('b', '\x08'),
    ('0', '\x00')]

/-- The text that an escape stands for. -/
def decode : Escape → Except EscapeError Text
  | .number n =>
    match CodePoint.ofNat? n with
    | some c => .ok [c]
    | none => .error (if n < 0x80000000 then .notACodePoint else .notAWord)
  | .lineBreak => .ok []
  | .single c => .ok [(controls.lookup c).getD c]

end Escape

/-- Decodes every escape of a literal's body. -/
def unescape : Text → Except EscapeError Text
  | [] => .ok []
  | c :: rest =>
    if c = '\\' then
      match Escape.scan? rest with
      | none => .ok [c]
      | some (escape, taken) => do
        let decoded ← escape.decode
        let tail ← unescape (rest.drop taken)
        return decoded ++ tail
    else do
      let tail ← unescape rest
      return c :: tail
termination_by t => t.length
decreasing_by all_goals simp; try omega

end RuleTypes
