import RuleTypes.Decimal.Notation
import RuleTypes.Dictionary
import RuleTypes.Text.Quoted

/-!
# JSON values and their texts

`Json.display` is the text of a value where a type text is expected: a string stands for itself, and
any other value is written out. Strings inside lists and objects are quoted as in messages.
-/

namespace RuleTypes

inductive Json where
  | null
  | bool (value : Bool)
  | integer (value : Int)
  | number (value : Binary64)
  | string (value : Text)
  | array (items : List Json)
  | object (members : List (Text × Json))

namespace Json

/-- Numbers are written positionally from `0.0001` to below `10 ^ 16`, and with an exponent of at
least two digits otherwise. -/
def numberNotation : DecimalNotation where
  leastPoint := -3
  greatestPoint := 16
  exponentWidth := 2
  notANumber := "nan"
  infinity := "inf"

mutual

/-- A value written out. -/
def written : Json → Text
  | null => "None"
  | bool true => "True"
  | bool false => "False"
  | integer n => Numeral.signed n
  | number x => numberNotation.render x
  | string t => t.quoted
  | array items => "[" ++ Text.join ", " (writtenItems items) ++ "]"
  | object members => "\x7b" ++ Text.join ", " (writtenMembers members) ++ "\x7d"

def writtenItems : List Json → List Text
  | [] => []
  | item :: items => written item :: writtenItems items

def writtenMembers : List (Text × Json) → List Text
  | [] => []
  | (key, value) :: members => (key.quoted ++ ": " ++ written value) :: writtenMembers members

end

/-- A value as text: strings as they are, other values written out. -/
def display : Json → Text
  | string t => t
  | value => value.written

end Json

end RuleTypes
