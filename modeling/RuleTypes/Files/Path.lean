import RuleTypes.Text.CodePoint

/-!
# Paths

A path is a sequence of parts behind a root. Empty parts and single dots carry no meaning and are
dropped; two dots, which stand for the parent, are kept, because what they mean depends on what is
there. A `Place` is where a path leads: the names of the directories on the way down from the root
of all files.

* `Path.ofText` reads a path and `Path.toText` writes it.
* `Path.expand` puts a home directory in the place of a tilde.
* `Place.step` is one step of a path.
-/

namespace RuleTypes

structure Path where
  /-- Nothing for a path that starts at the current directory; else the slashes of the root. -/
  root : Text
  parts : List Text
deriving DecidableEq

namespace Path

/-- Whether a part says where to go. -/
def isStep (part : Text) : Bool := part ≠ [] && part ≠ Text.ofString "."

/-- The root of a path that begins with this many slashes: two of them are a root of their own. -/
def rootOfSlashes : Nat → Text
  | 0 => []
  | 2 => "//"
  | _ => "/"

/-- Reads a path. -/
def ofText (t : Text) : Path where
  root := rootOfSlashes (t.takeWhile (· = CodePoint.ofChar '/')).length
  parts := (t.pieces (· = CodePoint.ofChar '/')).filter isStep

/-- Writes a path. -/
def toText (p : Path) : Text :=
  if p.root = [] ∧ p.parts = [] then "." else p.root ++ Text.join "/" p.parts

def isAbsolute (p : Path) : Bool := p.root ≠ []

/-- Whether names can hold a code point: not zero, and of the surrogates those that stand for a byte
which is no text. -/
def isNameable (c : CodePoint) : Bool :=
  c ≠ '\x00' && (!c.isSurrogate || (0xDC80 ≤ c.toNat && c.toNat ≤ 0xDCFF))

/-- Whether files can have the names in a path. -/
def hasNames (p : Path) : Bool := p.parts.all fun part => part.all isNameable

end Path

/-- Why the home directory of a user cannot be had. -/
inductive HomeError where
  /-- There is no such user, or none with a home. -/
  | unknown
  /-- No user can have the name. -/
  | unnameable
deriving DecidableEq, Repr

/-- The path with a home directory in it: where a path that starts at the current directory begins
with a tilde, the first part names a user, and `home` says where that user is at home. -/
def Path.expand (home : Text → Except HomeError Path) (p : Path) : Except HomeError Path :=
  match p.root, p.parts with
  | [], (c :: user) :: parts =>
    if c = '~' then do
      let directory ← home user
      return { directory with parts := directory.parts ++ parts }
    else .ok p
  | _, _ => .ok p

/-- The names on the way down to a file or directory. -/
abbrev Place := List Text

namespace Place

/-- The place of the directory that holds this one; the root holds itself. -/
def parent (p : Place) : Place := p.dropLast

/-- The directories on the way to a place, from the root on. -/
def ancestors (p : Place) : List Place := (List.range p.length).map (p.take ·)

/-- Where one part of a path leads from a directory. -/
def step (p : Place) (part : Text) : Place :=
  if part = Text.ofString ".." then p.parent else p ++ [part]

end Place

end RuleTypes
