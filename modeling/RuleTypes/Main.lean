import RuleTypes.CommandLine.Run

/-!
# The program

Looks at the host and at the files that the arguments name, runs the command line on them, writes
what has changed and prints what is reported.
-/

namespace RuleTypes.CommandLine

/-! ## The host -/

/-- A summary of the usage, line by line. -/
def usage : List Text :=
  ["usage: pegtypes [options] grammar",
   "",
   "Emit TypeScript type declarations for the rules of a peggy grammar.",
   "",
   "-h, --help                   show this text",
   "-o, --output OUTPUT          output file (default: stdout)",
   "--return-types JSON          rule name → type mapping as JSON, or @file.json",
   "--allowed-start-rules RULES  comma-separated start rules, or '*' for all (default: first rule)",
   "--no-camel-case              use rule names unchanged as type names",
   "--header HEADER              text emitted before the declarations",
   "--fallback-type TYPE         type for rules without structural signal (default: string[])",
   "-v, --verbose                log more; twice for everything",
   "--version                    show the version"]

def usageText : Text := usage.flatMap (· ++ ("\n" : Text))

/-- What is said of return types: of a file that cannot be opened, what the system says. -/
def ReturnTypesError.message (path : Text) : ReturnTypesError → Text
  | .homeless _ => "embedded null byte"
  | .unreadable .missing => "[Errno 2] No such file or directory: " ++ path.quoted
  | .unreadable .isDirectory => "[Errno 21] Is a directory: " ++ path.quoted
  | .unreadable .notUtf8 => "the file is not UTF-8"
  | _ => "the text is not JSON"

/-- The home of a user in a list of all users, one a line with colons between its parts. -/
def listedHome? (users : List String) (name : String) : Option String :=
  users.findSome? fun line =>
    match line.splitOn ":" with
    | [user, _, _, _, _, directory, _] => if user = name then some directory else none
    | _ => none

/-- The home that is listed as a directory. A directory at somebody's home is none. -/
def homeAt (directory : Text) : Except HomeError Path :=
  if directory.head? = some (CodePoint.ofChar '~') then .error .unknown
  else if directory.all (· = CodePoint.ofChar '/') then .ok (.ofText "/")
  else .ok (.ofText directory)

/-- The host of this program. -/
def thisHost : IO Host := do
  let own ← IO.getEnv "HOME"
  let users ← try IO.FS.lines "/etc/passwd" catch _ => pure #[]
  let home (user : Text) : Except HomeError Path :=
    if user.all Path.isNameable then
      let directory? := if user.isEmpty then own else user.toString?.bind (listedHome? users.toList)
      directory?.elim (.error .unknown) fun directory => homeAt (Text.ofString directory)
    else .error .unnameable
  let host : Host := { Host.bare with home, help := usageText }
  let pathText (argument : Text) : Text :=
    match (returnTypesPath? argument).map host.path with
    | some (.ok path) => path.toText
    | _ => argument
  return { host with explain := fun _ argument e => e.message (pathText argument) }

/-! ## Files -/

/-- The paths that a request names. -/
def Request.paths (r : Request) (host : Host) : List Path :=
  let named := r.grammar :: ((r.returnTypes.bind returnTypesPath?).toList ++ r.output.toList)
  named.filterMap fun path => (host.path path).toOption

/-- A text for the operating system. -/
def nativeText (t : Text) : IO String :=
  match t.toString? with
  | some s => return s
  | none => throw (.userError "a text holds a surrogate")

/-- The absolute path of a place, for the operating system. -/
def nativePath (p : Place) : IO String := nativeText ("/" ++ Text.join "/" p)

/-- Looks at what is at a place. -/
def look (t : FileTree) (p : Place) : IO FileTree := do
  let path := (← IO.currentDir) / (← nativePath p)
  if ← path.isDir then return t.addDirectories [p]
  if ← path.pathExists then return t.put p (← IO.FS.readBinFile path).toList
  return t

/-- Looks at all places on the way along a path. -/
def lookAlong (t : FileTree) (path : Path) : IO FileTree := do
  let mut t ← look t (t.start path)
  let mut place := t.start path
  for part in path.parts do
    place := place.step part
    t ← look t place
  return t

/-- The files that a command is about. -/
def lookAround (host : Host) (command : Command) : IO FileTree := do
  let current := Path.ofText (Text.ofString (← IO.currentDir).toString)
  let t : FileTree := { current := current.parts }
  match command with
  | .run request => (request.paths host).foldlM lookAlong t
  | _ => return t

/-- Writes the files that are new or have changed. -/
def store (old new : FileTree) : IO Unit := do
  for (place, bytes) in new.files do
    unless old.file? place = some bytes do
      IO.FS.createDirAll (← nativePath place.parent)
      IO.FS.writeBinFile (← nativePath place) ⟨bytes.toArray⟩

/-- The exit code of a run, with word of a crash. -/
def conclude (ending : Ending) : IO UInt32 := do
  if ending = .misused then IO.eprint (← nativeText usageText)
  match ending.exitCode? with
  | some code => return .ofNat code
  | none =>
    IO.eprintln "pegtypes: the run broke off"
    return 1

end RuleTypes.CommandLine

open RuleTypes RuleTypes.CommandLine in
def main (arguments : List String) : IO UInt32 := do
  let arguments := arguments.map Text.ofString
  let host ← thisHost
  let files ← lookAround host (parse arguments)
  let report := run host files arguments
  store files report.files
  IO.print (← nativeText report.output)
  for record in report.records do
    IO.eprintln (← nativeText record.line)
  conclude report.ending
