import RuleTypes.Files.Path
import RuleTypes.Text.Blank
import RuleTypes.Text.Utf8

/-!
# Trees of files

The files and directories that a program finds, and what becomes of them when it writes one file.

* `FileTree.find?` follows a path: every part but the last must lead to a directory.
  `FileTree.readText` reads the text file there.
* `FileTree.destination` is where a new file goes; it asks for nothing to be there.
* `FileTree.writeAt` puts a file where its path says, with the directories on the way, and
  `FileTree.write` does so for a place. `FileTree.lookup?_put` says that the place then holds the
  file, and `FileTree.file?_write` that all other files stay as they are.
-/

namespace RuleTypes

/-- What can be at a place. -/
inductive Entry where
  | directory
  | file (bytes : List UInt8)
deriving DecidableEq

/-- The files and directories below a root, and the place where relative paths start. -/
structure FileTree where
  current : Place := []
  directories : List Place := []
  files : List (Place × List UInt8) := []
deriving DecidableEq

namespace FileTree

/-- The bytes of the file at a place. -/
def file? (t : FileTree) (p : Place) : Option (List UInt8) := t.files.lookup p

/-- What is at a place. The root is a directory. -/
def lookup? (t : FileTree) (p : Place) : Option Entry :=
  match t.file? p with
  | some bytes => some (.file bytes)
  | none => if p = [] ∨ p ∈ t.directories then some .directory else none

def isDirectory (t : FileTree) (p : Place) : Bool := t.lookup? p = some .directory

/-- The place where a path starts. -/
def start (t : FileTree) (path : Path) : Place := if path.isAbsolute then [] else t.current

/-- Follows the parts of a path. A part leads on only from a directory. -/
def walk? (t : FileTree) : Place → List Text → Option Place
  | p, [] => some p
  | p, part :: parts => if t.isDirectory p then t.walk? (p.step part) parts else none

/-- What a path leads to. -/
def find? (t : FileTree) (path : Path) : Option Entry :=
  (t.walk? (t.start path) path.parts).bind t.lookup?

/-- Why a text file cannot be read. -/
inductive ReadError where
  | missing
  | isDirectory
  | notUtf8
deriving DecidableEq, Repr

/-- The text of the file that a path leads to, with line feeds for all its line ends. -/
def readText (t : FileTree) (path : Path) : Except ReadError Text :=
  match t.find? path with
  | none => .error .missing
  | some .directory => .error .isDirectory
  | some (.file bytes) =>
    match Utf8.decode? bytes with
    | some text => .ok text.normalizeNewlines
    | none => .error .notUtf8

/-- The place of a file that is to be written. -/
def destination (t : FileTree) (path : Path) : Place := path.parts.foldl Place.step (t.start path)

/-- Why a file cannot be written. -/
inductive WriteError where
  /-- No file can have a name that its path holds. -/
  | unnameable
  /-- There is a directory at its place. -/
  | isDirectory
  /-- The directory to hold it is a file. -/
  | parentIsFile
  /-- Further up, a directory on the way is a file. -/
  | ancestorIsFile
deriving DecidableEq, Repr

/-- The tree with directories at all these places. -/
def addDirectories (t : FileTree) (places : List Place) : FileTree :=
  { t with directories := t.directories ++ places.filter (!t.isDirectory ·) }

/-- The tree with a file at a place. -/
def put (t : FileTree) (p : Place) (bytes : List UInt8) : FileTree :=
  { t with files := (p, bytes) :: t.files.filter (·.1 ≠ p) }

/-- Writes a file, over an older one or with new directories on the way. -/
def write (t : FileTree) (p : Place) (bytes : List UInt8) : Except WriteError FileTree :=
  if (t.file? p.parent).isSome then .error .parentIsFile
  else if p.ancestors.any fun q => (t.file? q).isSome then .error .ancestorIsFile
  else if t.isDirectory p then .error .isDirectory
  else .ok ((t.addDirectories p.ancestors).put p bytes)

/-- Writes a file at the place that a path names. -/
def writeAt (t : FileTree) (path : Path) (bytes : List UInt8) : Except WriteError FileTree :=
  if path.hasNames then t.write (t.destination path) bytes else .error .unnameable

/-! ## What is there after a file has been written -/

@[simp] theorem file?_addDirectories (t : FileTree) (places : List Place) (p : Place) :
    (t.addDirectories places).file? p = t.file? p := rfl

private theorem lookup_filter_ne {p q : Place} (h : q ≠ p) (files : List (Place × List UInt8)) :
    (files.filter (·.1 ≠ p)).lookup q = files.lookup q := by
  induction files with
  | nil => rfl
  | cons e files ih =>
    obtain ⟨r, bytes⟩ := e
    by_cases hr : r = p
    · subst hr
      simp only [ne_eq, not_true, decide_false, Bool.false_eq_true, not_false_eq_true,
        List.filter_cons_of_neg, ih, List.lookup_cons]
      rw [show (q == r) = false by simpa using h]
    · simp only [ne_eq, hr, not_false_eq_true, decide_true, List.filter_cons_of_pos,
        List.lookup_cons, ← ih]

/-- A file that is put holds its bytes, and the others stay. -/
@[simp] theorem file?_put (t : FileTree) (p q : Place) (bytes : List UInt8) :
    (t.put p bytes).file? q = if q = p then some bytes else t.file? q := by
  simp only [file?, put, List.lookup_cons]
  by_cases h : q = p
  · simp [h]
  · rw [show (q == p) = false by simpa using h, if_neg h]
    exact lookup_filter_ne h t.files

end FileTree

end RuleTypes
