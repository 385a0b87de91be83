import RuleTypes.CommandLine.Arguments
import RuleTypes.CommandLine.Host
import RuleTypes.Json.Reader
import RuleTypes.Overrides

/-!
# Return types on the command line

The types that a user gives for rules are a JSON object: the argument itself, or the content of the
file whose path stands behind an at sign and may begin at a user's home. An empty argument gives
none. A value that is no string is written out.
-/

namespace RuleTypes

/-- The overrides in a JSON object. -/
def Overrides.ofJson? : Json → Option Overrides
  | .object members => some (.ofList (members.map fun (key, value) => (key, value.display)))
  | _ => none

namespace CommandLine

/-- The path of the file that an argument refers to. -/
def returnTypesPath? : Text → Option Text
  | [] => none
  | c :: path => if c = '@' then some path else none

/-- The overrides that an argument stands for. -/
def readReturnTypes (host : Host) (t : FileTree) (argument : Text) :
    Except ReturnTypesError Overrides :=
  if argument.isEmpty then .ok .empty
  else do
    let text ←
      match returnTypesPath? argument with
      | some path => do
        let path ← (host.path path).mapError .homeless
        (t.readText path).mapError .unreadable
      | none => .ok argument
    match Json.parse? text with
    | none => .error .notJson
    | some value => (Overrides.ofJson? value).elim (.error .notAnObject) .ok

end CommandLine

end RuleTypes
