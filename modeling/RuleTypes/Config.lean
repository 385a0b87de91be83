import RuleTypes.Dictionary
import RuleTypes.Log
import RuleTypes.Text.Blank
import RuleTypes.Text.Quoted

/-!
# Configuration

How declarations are generated. Options come as pairs of a key and a value; a key may be spelled in
camel case or with underscores, and unknown keys have no effect.

* `Config.ofOptions` reads options, the later of two spellings of one setting winning.
* `Config.warnings` lists what will not come out as TypeScript.
-/

namespace RuleTypes

structure Config where
  /-- Whether rule names are used as they are. -/
  keepNames : Bool := false
  /-- The text before the declarations. -/
  header : Option Text := none
  /-- The type of rules whose shape says nothing. -/
  fallback : Text := "string[]"
deriving DecidableEq

/-- The value of an option. -/
inductive OptionValue where
  | absent
  | flag (on : Bool)
  | text (text : Text)
deriving DecidableEq

namespace OptionValue

/-- Whether a value counts as yes: a set flag and a text that is not empty do. -/
def isSet : OptionValue → Bool
  | absent => false
  | flag on => on
  | text t => !t.isEmpty

def text? : OptionValue → Option Text
  | text t => some t
  | _ => none

end OptionValue

/-- The settings that options are for. -/
inductive Setting where
  | keepNames
  | header
  | fallback
deriving DecidableEq, Repr

/-- The setting that an option's key is for. -/
def Setting.ofKey? (key : Text) : Option Setting :=
  if key ∈ ([("doNotCamelCaseTypes" : Text), "do_not_camel_case_types"] : List Text) then
    some keepNames
  else if key ∈ ([("customHeader" : Text), "customHeaderText", "custom_header"] : List Text) then
    some header
  else if key ∈ ([("fallbackType" : Text), "fallback_type"] : List Text) then some fallback
  else none

namespace Config

/-- The configuration with one option applied. -/
def apply (c : Config) (key : Text) (value : OptionValue) : Config :=
  match Setting.ofKey? key with
  | none => c
  | some .keepNames => { c with keepNames := value.isSet }
  | some .header => { c with header := value.text? }
  | some .fallback => { c with fallback := value.text?.getD c.fallback }

/-- The configuration that options describe. -/
def ofOptions (options : Dictionary OptionValue) : Config :=
  options.entries.foldl (fun c (key, value) => c.apply key value) {}

/-- What is logged about options: their unknown keys. -/
def optionRecords (options : Dictionary OptionValue) : List Log.Record :=
  (options.keys.filter fun key => (Setting.ofKey? key).isNone).map fun key =>
    Log.debug .config ("Ignoring unknown option " ++ key.quoted)

/-- A line of a header that is blank or looks like part of a comment. -/
def isCommentLine (line : Text) : Bool :=
  let text := Text.trim line
  text.isEmpty || ("//" : Text).isPrefixOf text || ("/*" : Text).isPrefixOf text ||
    ("*" : Text).isPrefixOf text

def fallbackWarning : Text := "fallback_type is empty; declarations will not parse"

def headerWarning (line : Text) : Text := "custom_header line is not a comment: " ++ line.quoted

/-- What is wrong with a configuration: a blank fallback type, and the first line of the header that
is no comment. -/
def warnings (c : Config) : List Text :=
  (if Text.isBlank c.fallback then [fallbackWarning] else []) ++
    ((Text.lines (c.header.getD [])).find? (!isCommentLine ·)).toList.map headerWarning

end Config

end RuleTypes
