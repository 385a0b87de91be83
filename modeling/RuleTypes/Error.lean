import RuleTypes.Text.Escape
import RuleTypes.Text.Quoted

/-!
# Errors

An `Error` is reported to the user: it has a code and a message. `Failure` is everything that can
stop an operation: an error, a string literal or a number in a source that cannot be decoded, a name
that no rule bears, and a type that cannot be written.
-/

namespace RuleTypes

/-- The kinds of errors that users can look up. -/
inductive ErrorCode where
  | syntaxError
  | duplicateRule
  | undefinedRule
deriving DecidableEq, Repr

/-- The number of a code: errors of the source text from 1000 on, of the rules from 2000 on. -/
def ErrorCode.number : ErrorCode → Nat
  | .syntaxError => 1000
  | .duplicateRule => 2000
  | .undefinedRule => 2001

inductive Error where
  /-- An error of no particular kind. -/
  | general (message : Text) (code : ErrorCode)
  /-- A malformed set of rules. -/
  | malformed (message : Text) (code : ErrorCode)
  /-- Two rules have one name. -/
  | duplicateRule (rule : Text)
  /-- A rule is referred to that does not exist. -/
  | undefinedRule (rule referencedFrom : Text)
  /-- A source text that is no grammar, with the place; line zero stands for no place. -/
  | syntaxError (message : Text) (line column : Int)
deriving DecidableEq

namespace Error

def code : Error → ErrorCode
  | general _ code => code
  | malformed _ code => code
  | duplicateRule _ => .duplicateRule
  | undefinedRule _ _ => .undefinedRule
  | syntaxError _ _ _ => .syntaxError

/-- What went wrong, without the code. -/
def message : Error → Text
  | general message _ => message
  | malformed message _ => message
  | duplicateRule rule => "Rule " ++ rule.quoted ++ " is defined more than once"
  | undefinedRule rule referencedFrom =>
    "Rule " ++ rule.quoted ++ " referenced from " ++ referencedFrom.quoted ++ " is not defined"
  | syntaxError message line column =>
    if line = 0 then message
    else "line " ++ Numeral.signed line ++ ", column " ++ Numeral.signed column ++ ": " ++ message

/-- The message with the code in front of it. -/
def report (e : Error) : Text := "[PEGT-" ++ Numeral.decimal e.code.number ++ "] " ++ e.message

/-- Whether the rules are at fault, and not the source text. -/
def isMalformed : Error → Bool
  | malformed _ _ => true
  | duplicateRule _ => true
  | undefinedRule _ _ => true
  | general _ _ => false
  | syntaxError _ _ _ => false

end Error

/-- Why a source cannot be decoded, though it is a sequence of rules. -/
inductive DecodingError where
  /-- An escape in a string literal. -/
  | escape (e : EscapeError)
  /-- A number with too many digits. -/
  | numeral
deriving DecidableEq, Repr

/-- What can stop an operation. -/
inductive Failure where
  | error (e : Error)
  | decoding (e : DecodingError)
  | unknownRule (name : Text)
  | unwrittenType
deriving DecidableEq

end RuleTypes
