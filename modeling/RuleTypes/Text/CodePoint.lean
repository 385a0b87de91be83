/-!
# Code points and texts

A `CodePoint` is any number below `0x110000`, surrogates included: an escape such as `\uD800` in a
grammar puts a lone surrogate into a literal, so `Char` is too small for what a text may hold. A
`Text` is a list of code points; every length, position and column of the library counts them.
-/

namespace RuleTypes

/-- A Unicode code point, surrogate or not. -/
structure CodePoint where
  toNat : Nat
  toNat_lt : toNat < 0x110000
deriving DecidableEq

instance : LawfulBEq CodePoint := instLawfulBEq

/-- A sequence of code points. -/
abbrev Text := List CodePoint

instance : LawfulBEq Text := List.instLawfulBEq

namespace CodePoint

/-- The code point with number `n`, if there is one. -/
def ofNat? (n : Nat) : Option CodePoint :=
  if h : n < 0x110000 then some ⟨n, h⟩ else none

/-- A character as a code point. -/
def ofChar (c : Char) : CodePoint where
  toNat := c.toNat
  toNat_lt := by
    have h := c.valid
    change c.val.toNat < _
    simp only [UInt32.isValidChar, Nat.isValidChar] at h
    omega

instance : Coe Char CodePoint := ⟨ofChar⟩

instance : Inhabited CodePoint := ⟨ofChar 'A'⟩

theorem toNat_inj {c d : CodePoint} : c.toNat = d.toNat ↔ c = d := by
  cases c; cases d; simp

/-- Surrogates are the code points that are no Unicode scalar values. -/
def isSurrogate (c : CodePoint) : Bool := 0xD800 ≤ c.toNat && c.toNat ≤ 0xDFFF

/-- `c` lies between the characters `lo` and `hi`, ends included. -/
def inRange (c : CodePoint) (lo hi : Char) : Bool := lo.toNat ≤ c.toNat && c.toNat ≤ hi.toNat

/-! ## ASCII classes -/

def isDigit (c : CodePoint) : Bool := c.inRange '0' '9'

def isUpper (c : CodePoint) : Bool := c.inRange 'A' 'Z'

def isLower (c : CodePoint) : Bool := c.inRange 'a' 'z'

def isLetter (c : CodePoint) : Bool := c.isUpper || c.isLower

def isAlphanumeric (c : CodePoint) : Bool := c.isLetter || c.isDigit

/-- Letters, digits and the underscore: what may stand inside an identifier. -/
def isWord (c : CodePoint) : Bool := c.isAlphanumeric || c = '_'

/-- Letters and the underscore: what may begin an identifier. -/
def isWordStart (c : CodePoint) : Bool := c.isLetter || c = '_'

/-- The upper-case letter of an ASCII lower-case letter; any other code point stays as it is. -/
def toUpper (c : CodePoint) : CodePoint :=
  if h : c.isLower then
    ⟨c.toNat - 32, by have := c.toNat_lt; omega⟩
  else c

end CodePoint

namespace Text

/-- The code points of a string. -/
def ofString (s : String) : Text := s.toList.map CodePoint.ofChar

instance : Coe String Text := ⟨ofString⟩

/-- The text as a string, or nothing when it holds a surrogate. -/
def toString? (t : Text) : Option String :=
  if t.any CodePoint.isSurrogate then none
  else some (String.ofList (t.map fun c => Char.ofNat c.toNat))

/-- The texts one after the other with `separator` between neighbours. -/
def join (separator : Text) (parts : List Text) : Text := (parts.intersperse separator).flatten

@[simp] theorem join_singleton (separator part : Text) : join separator [part] = part := by
  simp [join]

theorem join_cons_cons (separator a b : Text) (parts : List Text) :
    join separator (a :: b :: parts) = a ++ separator ++ join separator (b :: parts) := by
  simp [join]

/-- The pieces of `t` between the code points that satisfy `isSeparator`; one piece more than
there are separators, so the pieces may be empty. -/
def pieces (isSeparator : CodePoint → Bool) : Text → List Text
  | [] => [[]]
  | c :: rest =>
    let rest := pieces isSeparator rest
    if isSeparator c then [] :: rest
    else (c :: rest.headD []) :: rest.tail

theorem pieces_ne_nil (isSeparator : CodePoint → Bool) (t : Text) :
    pieces isSeparator t ≠ [] := by
  cases t with
  | nil => simp [pieces]
  | cons c rest => simp only [pieces]; split <;> simp

end Text

end RuleTypes
