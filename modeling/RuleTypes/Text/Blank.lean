import RuleTypes.Text.CodePoint

/-!
# Blanks and lines

Two sets of blank code points are in use: the white space of grammar sources (`isSpace`), and the
larger set that is trimmed from options and arguments (`isBlank`), which adds the four information
separators. Options are also cut into lines, at more line breaks than the line feed alone.
-/

namespace RuleTypes

namespace CodePoint

/-- Unicode white space: what a grammar source may hold between its tokens. -/
def isSpace (c : CodePoint) : Bool :=
  let n := c.toNat
  (9 ≤ n && n ≤ 13) || n = 0x20 || n = 0x85 || n = 0xA0 || n = 0x1680 || (0x2000 ≤ n && n ≤ 0x200A) ||
    n = 0x2028 || n = 0x2029 || n = 0x202F || n = 0x205F || n = 0x3000

/-- White space and the information separators `U+001C` to `U+001F`. -/
def isBlank (c : CodePoint) : Bool := c.isSpace || (0x1C ≤ c.toNat && c.toNat ≤ 0x1F)

/-- Code points that end a line of an option. -/
def endsLine (c : CodePoint) : Bool :=
  let n := c.toNat
  (10 ≤ n && n ≤ 13) || (0x1C ≤ n && n ≤ 0x1E) || n = 0x85 || n = 0x2028 || n = 0x2029

end CodePoint

namespace Text

/-- `t` without the blanks at its two ends. -/
def trim (t : Text) : Text :=
  ((t.dropWhile CodePoint.isBlank).reverse.dropWhile CodePoint.isBlank).reverse

/-- `t` holds nothing but blanks. -/
def isBlank (t : Text) : Bool := t.all CodePoint.isBlank

/-- The lines of `t` without their line breaks, a carriage return and line feed being one break.
A break at the very end opens no further line. -/
def lines (t : Text) : List Text := go [] t
where
  /-- The lines of `current`, reversed, followed by the rest of the text. -/
  go (current : Text) : Text → List Text
    | [] => if current.isEmpty then [] else [current.reverse]
    | [c] => if c.endsLine then [current.reverse] else [(c :: current).reverse]
    | c :: d :: rest =>
      if c = '\r' ∧ d = '\n' then current.reverse :: go [] rest
      else if c.endsLine then current.reverse :: go [] (d :: rest)
      else go (c :: current) (d :: rest)

/-- `t` with every carriage return, alone or before a line feed, replaced by a line feed. -/
def normalizeNewlines : Text → Text
  | [] => []
  | [c] => if c = '\r' then ['\n'] else [c]
  | c :: d :: rest =>
    if c = '\r' ∧ d = '\n' then '\n' :: normalizeNewlines rest
    else (if c = '\r' then CodePoint.ofChar '\n' else c) :: normalizeNewlines (d :: rest)

end Text

end RuleTypes
