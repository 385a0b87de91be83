import RuleTypes.Files.Tree

/-!
# What a run asks of its host

A run depends on more than its arguments and the files that are there: on where users are at home,
on what standard output can take, and on texts that are not the program's own. A `Host` is all of
that, and nothing in a run changes it.

The files are a `FileTree` and no part of the host. What else a system may refuse is not modelled: a
file that may not be read or written, a disk that is full, a name that is too long.

* `Host.path`: where a path leads that may begin at a user's home.
-/

namespace RuleTypes.CommandLine

/-- What can be wrong with return types. -/
inductive ReturnTypesError where
  /-- The path of the file begins at the home of a user, and there is none. -/
  | homeless (e : HomeError)
  | unreadable (e : FileTree.ReadError)
  /-- The text is no JSON, or holds an integer with too many digits. -/
  | notJson
  | notAnObject
deriving DecidableEq, Repr

structure Host where
  /-- Where a user is at home. The user without a name is the one who runs the program. -/
  home : Text → Except HomeError Path
  /-- Whether standard output can take a text. -/
  encodes : Text → Bool
  /-- What is said of return types that cannot be read or are no JSON. -/
  explain : FileTree → Text → ReturnTypesError → Text
  /-- The summary of the usage, laid out. -/
  help : Text

namespace Host

/-- A host without users, with standard output in UTF-8, and with nothing to say. -/
def bare : Host where
  home _ := .error .unknown
  encodes text := (Utf8.encode? text).isSome
  explain _ _ _ := []
  help := []

/-- The path that an argument means. -/
def path (host : Host) (argument : Text) : Except HomeError Path :=
  (Path.ofText argument).expand host.home

end Host

end RuleTypes.CommandLine
