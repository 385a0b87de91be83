import RuleTypes.Text.CodePoint

/-!
# Log records

What the library does is written down in records. A record has a level, a topic and a message; the
topic's name is what users see.
-/

namespace RuleTypes

namespace Log

inductive Level where
  | debug
  | info
  | warning
  | error
deriving DecidableEq, Repr

/-- The weight of a level; a reader asks for the records of some weight and above. -/
def Level.weight : Level → Nat
  | .debug => 0
  | .info => 1
  | .warning => 2
  | .error => 3

def Level.name : Level → Text
  | .debug => "DEBUG"
  | .info => "INFO"
  | .warning => "WARNING"
  | .error => "ERROR"

/-- What a record is about. -/
inductive Topic where
  | program
  | source
  | grammar
  | config
  | overrides
  | inference
  | generator
deriving DecidableEq, Repr

def Topic.name : Topic → Text
  | .program => "pegtypes"
  | .source => "pegtypes.peg"
  | .grammar => "pegtypes.grammar"
  | .config => "pegtypes.config"
  | .overrides => "pegtypes.overrides"
  | .inference => "pegtypes.inference"
  | .generator => "pegtypes.generator"

structure Record where
  level : Level
  topic : Topic
  message : Text
deriving DecidableEq

/-- The width that levels have in log lines. -/
def levelWidth : Nat := 5

/-- The level of a record as it stands in log lines. -/
def Level.label (level : Level) : Text :=
  level.name.take levelWidth ++ List.replicate (levelWidth - level.name.length) (CodePoint.ofChar ' ')

/-- A record as a log line. -/
def Record.line (r : Record) : Text :=
  "[" ++ r.level.label ++ "] " ++ r.topic.name ++ ": " ++ r.message

/-- A record for those who look for the causes of a result. -/
def debug (topic : Topic) (message : Text) : Record := ⟨.debug, topic, message⟩

end Log

end RuleTypes
