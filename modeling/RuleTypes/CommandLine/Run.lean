import RuleTypes.CommandLine.ReturnTypes
import RuleTypes.Generation

/-!
# Runs of the command line

A run takes a host, the files that are there and the arguments, and reports how it ends, what it
puts on standard output, what it logs, and the files afterwards.

Faults are met in a fixed order: the usage, a grammar that is not there, the return types, the text
of the grammar. Up to that point nothing is written. The declarations then go to one destination:
standard output, or a file. A path that begins at the home of a user who has none breaks a run off
where the path is needed.

* `Request.block` is the part of a run that writes nothing, `Request.deliver` the part that writes.
  `Request.translate` is what a block comes from once all texts are there.
* `run` is the whole.
-/

namespace RuleTypes.CommandLine

/-- The name and the version of the program. -/
def versionText : Text := "pegtypes 0.1.0\n"

/-- What breaks a run off that no rule of the program provides for. -/
inductive Crash where
  /-- A path begins at the home of a user, and there is none. -/
  | homeless (e : HomeError)
  | unreadable (e : FileTree.ReadError)
  | unwritable (e : FileTree.WriteError)
  /-- The declarations hold what their destination cannot: no file can hold a surrogate. -/
  | unencodable
  /-- A flag whose text is needed was given a separator for a value. -/
  | textless (flag : Flag)
  | failure (f : Failure)
deriving DecidableEq

/-- How a run ends. -/
inductive Ending where
  | done
  /-- The grammar was at fault. -/
  | rejected
  /-- The grammar or the return types could not be had. -/
  | unusable
  /-- The arguments were at fault. -/
  | misused
  | crashed (c : Crash)
deriving DecidableEq

/-- The exit code of a run that has not crashed. -/
def Ending.exitCode? : Ending → Option Nat
  | .done => some 0
  | .rejected => some 1
  | .unusable => some 2
  | .misused => some 2
  | .crashed _ => none

/-- What is known when a run has ended. -/
structure Report where
  ending : Ending
  /-- The text on standard output. -/
  output : Text := []
  records : List Log.Record := []
  files : FileTree

namespace Request

/-- The start rules that are asked for. None stand for the first rule. -/
def startRuleNames (r : Request) : List Text :=
  match r.startRules with
  | none => []
  | some names => ((names.pieces (· = CodePoint.ofChar ',')).map Text.trim).filter (· ≠ [])

def config (r : Request) : Config := ⟨r.keepNames, r.header, r.fallback⟩

/-- The overrides that are asked for. -/
def overrides (r : Request) (host : Host) (t : FileTree) : Except ReturnTypesError Overrides :=
  readReturnTypes host t (r.returnTypes.getD [])

/-- The least level of the records that are shown. -/
def leastLevel (r : Request) : Log.Level :=
  match r.verbosity with
  | 0 => .warning
  | 1 => .info
  | _ => .debug

/-- The records that are shown. -/
def shown (r : Request) (records : List Log.Record) : List Log.Record :=
  records.filter fun record => r.leastLevel.weight ≤ record.level.weight

/-- The path of the file to write, if it is not standard output that is asked for. -/
def outputPath? (r : Request) : Option Text :=
  match r.output with
  | none => none
  | some path => if path = Text.ofString "-" then none else some path

end Request

/-- The end of a run before anything is written. -/
structure Stop where
  ending : Ending
  records : List Log.Record := []

namespace Stop

/-- A run that lacks what it needs. -/
def unusable (message : Text) : Stop := ⟨.unusable, [⟨.error, .program, message⟩]⟩

/-- A run that breaks off. -/
def crashed (c : Crash) (records : List Log.Record) : Stop := ⟨.crashed c, records⟩

/-- What is said of return types that are refused. -/
def refusal (host : Host) (t : FileTree) (argument : Text) : ReturnTypesError → Text
  | .notAnObject => "return types must be a JSON object"
  | e => host.explain t argument e

/-- A run that return types stop. They are refused whatever is wrong with them, but for a user whose
home is unknown. -/
def returnTypes (host : Host) (t : FileTree) (argument : Text) : ReturnTypesError → Stop
  | .homeless .unknown => .crashed (.homeless .unknown) []
  | e => .unusable ("invalid --return-types: " ++ refusal host t argument e)

/-- A run that a grammar stops. -/
def failed (path : Path) (records : List Log.Record) : Failure → Stop
  | .error e => ⟨.rejected, records ++ [⟨.error, .program, path.toText ++ ": " ++ e.report⟩]⟩
  | f => .crashed (.failure f) records

end Stop

/-- Declarations that are ready to be written. -/
structure Block where
  text : Text
  size : Nat
  records : List Log.Record

/-- The block of a grammar's text. -/
def Request.translate (r : Request) (path : Path) (overrides : Overrides) (source : Text) :
    Except Stop Block := do
  let g ← (Grammar.parse source r.startRuleNames).mapError (.failed path [])
  if .fallback ∈ r.textless then throw (.crashed (.textless .fallback) [g.parsedRecord])
  let records := g.parsedRecord :: generateRecords g overrides r.config
  let text ← (generate g overrides r.config).mapError (.failed path records)
  if .header ∈ r.textless then throw (.crashed (.textless .header) records)
  return { text, size := g.size, records }

/-- The block that is asked for. -/
def Request.block (r : Request) (host : Host) (t : FileTree) : Except Stop Block := do
  let path ← (host.path r.grammar).mapError fun e => .crashed (.homeless e) []
  match t.find? path with
  | none => .error (.unusable ("grammar not found: " ++ path.toText))
  | some _ => do
    let overrides ← (r.overrides host t).mapError (.returnTypes host t (r.returnTypes.getD []))
    let source ← (t.readText path).mapError fun e => .crashed (.unreadable e) []
    r.translate path overrides source

/-- What is logged when a block has been written. -/
def Block.writtenRecord (b : Block) : Log.Record :=
  ⟨.info, .program, "wrote " ++ Numeral.decimal b.size ++ " declarations"⟩

/-- Writes a block to its destination. Standard output takes all of the text or nothing. A file is
there before its content is, so it stays empty if the content cannot be encoded. -/
def Request.deliver (r : Request) (host : Host) (t : FileTree) (b : Block) : Report :=
  let done : Report :=
    { ending := .done, records := r.shown (b.records ++ [b.writtenRecord]), files := t }
  let crashed (c : Crash) (files : FileTree) : Report :=
    { ending := .crashed c, records := r.shown b.records, files }
  if .output ∈ r.textless then crashed (.textless .output) t
  else
    match r.outputPath? with
    | none =>
      if host.encodes b.text then { done with output := b.text } else crashed .unencodable t
    | some path =>
      match host.path path with
      | .error e => crashed (.homeless e) t
      | .ok path =>
        let bytes? := Utf8.encode? b.text
        match t.writeAt path (bytes?.getD []) with
        | .error e => crashed (.unwritable e) t
        | .ok t' => if bytes?.isSome then { done with files := t' } else crashed .unencodable t'

/-- Does what a request asks for. -/
def Request.run (r : Request) (host : Host) (t : FileTree) : Report :=
  match r.block host t with
  | .ok b => r.deliver host t b
  | .error stop => { ending := stop.ending, records := r.shown stop.records, files := t }

/-- Runs the command line. -/
def run (host : Host) (t : FileTree) (arguments : List Text) : Report :=
  match parse arguments with
  | .run request => request.run host t
  | .version => { ending := .done, output := versionText, files := t }
  | .help => { ending := .done, output := host.help, files := t }
  | .misuse => { ending := .misused, files := t }

end RuleTypes.CommandLine
