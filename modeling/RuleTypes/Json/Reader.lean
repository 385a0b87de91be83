import RuleTypes.Json.Basic

/-!
# Reading JSON

`Json.parse?` reads a text as one JSON value between blanks. It follows the standard, with three
numbers more (`NaN`, `Infinity` and `-Infinity`): control characters in strings, leading zeros and
trailing commas are refused, and so is an integer with too many digits. Of two members with one key
the later value counts, in the place of the earlier. Two escapes that make a surrogate pair give one
code point.

Every reader takes the text from its start and gives the rest behind what it has read.
-/

namespace RuleTypes.Json

/-- A text without the blanks at its start. -/
def skipBlanks (s : Text) : Text :=
  s.dropWhile fun c => c = ' ' || c = '\t' || c = '\n' || c = '\r'

/-- The text behind `word`, if the text begins with it. -/
def behind? (word s : Text) : Option Text :=
  if word.isPrefixOf s then some (s.drop word.length) else none

/-! ## Strings -/

/-- The single letters and signs behind a backslash. -/
def simpleEscapes : List (CodePoint × CodePoint) :=
  [('"', '"'), ('\\', '\\'), ('/', '/'), ('b', '\x08'), ('f', '\x0c'), ('n', '\n'), ('r', '\r'),
    ('t', '\t')]

/-- Four hexadecimal digits, as a code point. -/
def readUnit? (s : Text) : Option (CodePoint × Text) := do
  if s.length < 4 then failure
  let n ← Numeral.readHex? (s.take 4)
  return (← CodePoint.ofNat? n, s.drop 4)

/-- The code point of a surrogate pair. -/
def joinPair? (high low : CodePoint) : Option CodePoint :=
  if 0xD800 ≤ high.toNat ∧ high.toNat ≤ 0xDBFF ∧ 0xDC00 ≤ low.toNat ∧ low.toNat ≤ 0xDFFF then
    CodePoint.ofNat? (0x10000 + (high.toNat - 0xD800) * 0x400 + (low.toNat - 0xDC00))
  else none

/-- What follows a backslash and a `u`: a unit, or two units that make a surrogate pair. -/
def readCodePoint? (s : Text) : Option (CodePoint × Text) := do
  let (c, rest) ← readUnit? s
  let pair := do
    let (d, rest) ← readUnit? (← behind? "\\u" rest)
    return (← joinPair? c d, rest)
  return pair.getD (c, rest)

/-- A string behind its opening quote, up to and with the closing one. -/
def readString? : Nat → Text → Option (Text × Text)
  | 0, _ => none
  | _ + 1, [] => none
  | fuel + 1, c :: rest =>
    if c = '"' then some ([], rest)
    else if c.toNat < 0x20 then none
    else do
      let (d, rest) ←
        if c = '\\' then
          match rest with
          | [] => none
          | e :: rest =>
            if e = 'u' then readCodePoint? rest else (simpleEscapes.lookup e).map (·, rest)
        else some (c, rest)
      let (t, rest) ← readString? fuel rest
      return (d :: t, rest)

/-! ## Numbers -/

/-- The digits at the start of a text, one or more. -/
def readDigits? (s : Text) : Option (Text × Text) :=
  let digits := s.takeWhile CodePoint.isDigit
  if digits.isEmpty then none else some (digits, s.drop digits.length)

/-- The integer part of a number: a zero, or digits that do not begin with one. -/
def readInteger? (s : Text) : Option (Text × Text) :=
  match s with
  | [] => none
  | c :: rest => if c = '0' then some ([c], rest) else readDigits? s

/-- The digits of a fraction, if there is one. -/
def readFraction (s : Text) : Option Text × Text :=
  match (behind? "." s).bind readDigits? with
  | some (digits, rest) => (some digits, rest)
  | none => (none, s)

/-- The exponent, if there is one. -/
def readExponent (s : Text) : Option Int × Text :=
  match s with
  | [] => (none, s)
  | c :: rest =>
    let sign := rest.headD 'A'
    let unsigned := if sign = '-' ∨ sign = '+' then rest.drop 1 else rest
    match if c = 'e' ∨ c = 'E' then readDigits? unsigned else none with
    | some (digits, rest) =>
      let n : Int := Numeral.readDecimal digits
      (some (if sign = '-' then -n else n), rest)
    | none => (none, s)

/-- A number without its sign. A number with neither fraction nor exponent is an integer, and an
integer alone can have too many digits. -/
def readMagnitude? (negative : Bool) (s : Text) : Option (Json × Text) := do
  let (whole, rest) ← readInteger? s
  let (fraction, rest) := readFraction rest
  let (exponent, rest) := readExponent rest
  if fraction.isNone ∧ exponent.isNone then
    let n : Int ← Numeral.readDecimal? whole
    return (integer (if negative then -n else n), rest)
  else
    let fraction := fraction.getD []
    let digits := Numeral.readDecimal (whole ++ fraction)
    return (number (.ofDecimal negative digits (exponent.getD 0 - fraction.length)), rest)

/-- The words that stand for a value. -/
def words : List (Text × Json) :=
  [(Text.ofString "null", null), (Text.ofString "true", bool true),
    (Text.ofString "false", bool false), (Text.ofString "NaN", number .notANumber),
    (Text.ofString "Infinity", number (.infinite false)),
    (Text.ofString "-Infinity", number (.infinite true))]

/-- A value that is a single word or a number. -/
def readScalar? (s : Text) : Option (Json × Text) :=
  match words.findSome? fun (word, value) => (behind? word s).map (value, ·) with
  | some found => some found
  | none =>
    match behind? "-" s with
    | some rest => readMagnitude? true rest
    | none => readMagnitude? false s

/-! ## Values -/

mutual

/-- A value. Each step into a part of a value costs one unit of fuel. -/
def readValue? : Nat → Text → Option (Json × Text)
  | 0, _ => none
  | fuel + 1, s =>
    match s with
    | [] => none
    | c :: rest =>
      if c = '"' then (readString? (rest.length + 1) rest).map fun (t, rest) => (string t, rest)
      else if c = '[' then
        match behind? "]" (skipBlanks rest) with
        | some rest => some (array [], rest)
        | none => (readItems? fuel rest).map fun (items, rest) => (array items, rest)
      else if c = '{' then
        match behind? "\x7d" (skipBlanks rest) with
        | some rest => some (object [], rest)
        | none =>
          (readMembers? fuel rest).map fun (members, rest) =>
            (object (members.foldl (fun ms (key, value) => Dictionary.put key value ms) []), rest)
      else readScalar? s

/-- The items of an array and the closing bracket. -/
def readItems? : Nat → Text → Option (List Json × Text)
  | 0, _ => none
  | fuel + 1, s => do
    let (item, rest) ← readValue? fuel (skipBlanks s)
    let rest := skipBlanks rest
    match behind? "," rest with
    | some rest =>
      let (items, rest) ← readItems? fuel rest
      return (item :: items, rest)
    | none => return ([item], ← behind? "]" rest)

/-- The members of an object and the closing brace. -/
def readMembers? : Nat → Text → Option (List (Text × Json) × Text)
  | 0, _ => none
  | fuel + 1, s => do
    let rest ← behind? "\"" (skipBlanks s)
    let (key, rest) ← readString? (rest.length + 1) rest
    let rest ← behind? ":" (skipBlanks rest)
    let (value, rest) ← readValue? fuel (skipBlanks rest)
    let rest := skipBlanks rest
    match behind? "," rest with
    | some rest =>
      let (members, rest) ← readMembers? fuel rest
      return ((key, value) :: members, rest)
    | none => return ([(key, value)], ← behind? "\x7d" rest)

end

/-- The value of a text. The parts of a value are no more than its code points, so the fuel does not
run out. -/
def parse? (s : Text) : Option Json := do
  let (value, rest) ← readValue? (2 * s.length + 2) (skipBlanks s)
  if (skipBlanks rest).isEmpty then return value else failure

end RuleTypes.Json
