import RuleTypes.Config
import RuleTypes.Text.Digit

/-!
# Command line arguments

One argument names the grammar; options may stand anywhere before a `--`. A long option may be cut
short as long as only one begins so, and takes its value behind an equals sign or from the next
argument. Short options may be joined, the last one taking the rest of the argument as its value; an
equals sign behind the first of them does not count. A joined letter that is no option is wrong
usage, and so is a value behind the equals sign of a long option that takes none. An argument that
begins with a minus sign is a value only if it is that sign alone, looks like a negative number, or
holds a blank and begins no option.

A separator `--` belongs to the argument that names the grammar, before or behind which it stands;
any other separator is an argument too many, and so is a second grammar or an unknown option. As the
value of an option, given in the same argument, a separator stands for no text.

* `CommandLine.parse` reads arguments into a request, or finds that only the version or a summary
  of the usage is asked for, or that the usage is wrong.
-/

namespace RuleTypes.CommandLine

inductive Flag where
  | help
  | output
  | returnTypes
  | startRules
  | keepNames
  | header
  | fallback
  | verbose
  | version
deriving DecidableEq, Repr

namespace Flag

/-- The long name of a flag. -/
def long : Flag → Text
  | help => "--help"
  | output => "--output"
  | returnTypes => "--return-types"
  | startRules => "--allowed-start-rules"
  | keepNames => "--no-camel-case"
  | header => "--header"
  | fallback => "--fallback-type"
  | verbose => "--verbose"
  | version => "--version"

/-- The letter of a flag, if it has one. -/
def letter? : Flag → Option CodePoint
  | help => some 'h'
  | output => some 'o'
  | verbose => some 'v'
  | _ => none

def takesValue : Flag → Bool
  | output => true
  | returnTypes => true
  | startRules => true
  | header => true
  | fallback => true
  | _ => false

def all : List Flag :=
  [help, output, returnTypes, startRules, keepNames, header, fallback, verbose, version]

/-- The flag with this letter. -/
def ofLetter? (c : CodePoint) : Option Flag := all.find? (·.letter? = some c)

/-- The flags whose long name begins with `name`; the full name of a flag means that flag alone. -/
def candidates (name : Text) : List Flag :=
  match all.find? (·.long = name) with
  | some flag => [flag]
  | none => all.filter (name.isPrefixOf ·.long)

end Flag

/-- The flags that one argument gives. -/
structure Cluster where
  /-- Flags without values, in order. -/
  flags : List Flag := []
  /-- A last flag with its value, which is still to come if there is none. -/
  valued : Option (Flag × Option Text) := none
deriving DecidableEq

namespace Cluster

/-- A flag with nothing behind it. -/
def single (flag : Flag) : Cluster :=
  if flag.takesValue then { valued := some (flag, none) } else { flags := [flag] }

/-- A flag with the text behind its equals sign, which only a flag that takes a value may have. -/
def assigned? (flag : Flag) (text : Text) : Option Cluster :=
  if flag.takesValue then some { valued := some (flag, some text) } else none

/-- A flag with the text behind its letter: its value, or the letters of more flags. -/
def joined? (flag : Flag) : Text → Option Cluster
  | [] => some (single flag)
  | c :: rest =>
    if flag.takesValue then some { valued := some (flag, some (c :: rest)) }
    else do
      let next ← Flag.ofLetter? c
      let others ← joined? next rest
      return { others with flags := flag :: others.flags }

/-- The flags of an argument that has the letter of `flag` first and `rest` behind it. An equals
sign between them does not count, but some text must follow it unless the flag takes a value. -/
def ofLetter? (flag : Flag) (rest : Text) : Option Cluster :=
  match rest with
  | [] => some (single flag)
  | c :: text =>
    if c = '=' then if text.isEmpty then assigned? flag text else joined? flag text
    else joined? flag rest

end Cluster

/-- What an argument is, seen alone. -/
inductive Slot where
  | value (text : Text)
  /-- The `--` behind which no options follow. -/
  | separator
  | flags (cluster : Cluster)
  /-- A flag with something behind it that it cannot have. -/
  | misused
  | unknown
deriving DecidableEq

/-- The slot of an argument that begins with a flag. -/
def Slot.ofCluster (cluster? : Option Cluster) : Slot := cluster?.elim .misused .flags

/-- A text without the line feed at its end, if there is one. -/
def withoutLineFeed (t : Text) : Text := if t.getLast? = some '\n' then t.dropLast else t

/-- A minus sign and a decimal number. -/
def isNegativeNumber (argument : Text) : Bool :=
  match withoutLineFeed argument with
  | [] => false
  | c :: rest =>
    let whole := rest.takeWhile CodePoint.isDecimalDigit
    match rest.drop whole.length with
    | [] => c = '-' && !whole.isEmpty
    | d :: fraction =>
      c = '-' && d = '.' && !fraction.isEmpty && fraction.all CodePoint.isDecimalDigit

/-- What an argument is that begins with a minus sign but with no flag. -/
def Slot.ofUnknown (argument : Text) : Slot :=
  if isNegativeNumber argument ∨ CodePoint.ofChar ' ' ∈ argument then .value argument else .unknown

/-- What an argument is, unless it may be cut short from more than one long name. -/
def Slot.ofArgument? (argument : Text) : Option Slot :=
  match argument with
  | [] => some (.value argument)
  | [_] => some (.value argument)
  | c :: d :: rest =>
    if c ≠ '-' then some (.value argument)
    else if d = '-' then
      let name := argument.takeWhile (· ≠ CodePoint.ofChar '=')
      match Flag.candidates name with
      | [] => some (.ofUnknown argument)
      | [flag] =>
        match argument.drop name.length with
        | [] => some (.flags (.single flag))
        | _ :: text => some (.ofCluster (Cluster.assigned? flag text))
      | _ => none
    else
      match Flag.ofLetter? d with
      | none => some (.ofUnknown argument)
      | some flag => some (.ofCluster (Cluster.ofLetter? flag rest))

/-- The argument behind which no options follow. -/
def separator : Text := "--"

/-- What the arguments are, each seen alone. Behind the first `--` all are values. -/
def slots? : List Text → Option (List Slot)
  | [] => some []
  | argument :: arguments =>
    if argument = separator then some (.separator :: arguments.map .value)
    else do
      let slot ← Slot.ofArgument? argument
      return slot :: (← slots? arguments)

/-- What a command line asks for. -/
structure Request where
  grammar : Text
  output : Option Text := none
  returnTypes : Option Text := none
  startRules : Option Text := none
  keepNames : Bool := false
  header : Option Text := none
  fallback : Text := ({} : Config).fallback
  verbosity : Nat := 0
  /-- The flags that were last given a separator for a value, which is no text. -/
  textless : List Flag := []

/-- What a command line is. -/
inductive Command where
  | run (request : Request)
  | version
  | help
  | misuse

/-- What has been read of a command line. -/
structure Draft where
  grammar : Option Text := none
  request : Request := { grammar := [] }
  /-- Flags without values and the flag behind them whose value comes next. -/
  awaiting : Option (List Flag × Flag) := none
  /-- Whether a separator may come next: it may until the grammar is named, and right behind it. -/
  separable : Bool := true
  /-- Whether there is an argument too many. -/
  surplus : Bool := false

namespace Draft

/-- Sets the value of a flag. A separator is no text, so the flag is left without one. -/
def assign (d : Draft) (flag : Flag) (value : Text) : Draft :=
  let text? := if value = CommandLine.separator then none else some value
  let others := d.request.textless.filter (· ≠ flag)
  let textless := if text?.isSome then others else flag :: others
  let r := { d.request with textless }
  match flag with
  | .output => { d with request := { r with output := text? } }
  | .returnTypes => { d with request := { r with returnTypes := text? } }
  | .startRules => { d with request := { r with startRules := text? } }
  | .header => { d with request := { r with header := text? } }
  | .fallback => { d with request := { r with fallback := text?.getD ({} : Config).fallback } }
  | _ => d

/-- Applies flags without values. The version and the summary of the usage are given as soon as they
are asked for. -/
def applyFlags (d : Draft) : List Flag → Except Command Draft
  | [] => .ok d
  | flag :: flags =>
    let r := d.request
    match flag with
    | .version => .error .version
    | .help => .error .help
    | .verbose => applyFlags { d with request := { r with verbosity := r.verbosity + 1 } } flags
    | .keepNames => applyFlags { d with request := { r with keepNames := true } } flags
    | _ => applyFlags d flags

/-- Takes a value that belongs to no flag: the grammar, or one too many. -/
def takeValue (d : Draft) (value : Text) : Draft :=
  match d.grammar with
  | none => { d with grammar := some value }
  | some _ => { d with separable := false, surplus := true }

/-- Takes the flags of one argument. Those in front of a flag whose value is to come wait for it. -/
def takeCluster (d : Draft) (cluster : Cluster) : Except Command Draft :=
  match cluster.valued with
  | some (flag, none) => .ok { d with awaiting := some (cluster.flags, flag) }
  | some (flag, some value) => return (← d.applyFlags cluster.flags).assign flag value
  | none => d.applyFlags cluster.flags

/-- The draft once a flag has come: no separator may follow a grammar named before it. -/
def afterOption (d : Draft) : Draft := { d with separable := d.grammar.isNone }

/-- Takes the next argument. -/
def take (d : Draft) (slot : Slot) : Except Command Draft :=
  match d.awaiting, slot with
  | some (flags, flag), .value value =>
    return (← { d with awaiting := none }.applyFlags flags).assign flag value
  | some _, _ => .error .misuse
  | none, .value value => .ok (d.takeValue value)
  | none, .separator => .ok { d with surplus := d.surplus || !d.separable }
  | none, .unknown => .ok { d.afterOption with surplus := true }
  | none, .misused => .error .misuse
  | none, .flags cluster => d.afterOption.takeCluster cluster

/-- The command of a draft when all arguments have been taken. -/
def finish (d : Draft) : Command :=
  match d.grammar with
  | some grammar =>
    if d.surplus || d.awaiting.isSome then .misuse else .run { d.request with grammar }
  | none => .misuse

end Draft

/-- Reads a command line. -/
def parse (arguments : List Text) : Command :=
  match slots? arguments with
  | none => .misuse
  | some slots =>
    match slots.foldlM Draft.take {} with
    | .ok draft => draft.finish
    | .error command => command

end RuleTypes.CommandLine
