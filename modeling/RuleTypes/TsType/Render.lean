import RuleTypes.Text.Literal
import RuleTypes.TsType.Basic

/-!
# Writing types

`TsType.render nameOf t` is the text of `t`, where `nameOf` gives the identifier of a rule's
declaration. It fails for the type of no particular kind alone, and for types that contain it.
-/

namespace RuleTypes.TsType

/-- A text that binds looser than the brackets of an array: it holds a bar, an ampersand, a
question mark or an arrow. -/
def isLoose : Text → Bool
  | [] => false
  | c :: rest =>
    c = '|' || c = '&' || c = '?' || (c = '=' && rest.head? = some (CodePoint.ofChar '>')) ||
      isLoose rest

/-- Whether an element with this text stands in parentheses before the brackets of an array. -/
def needsParentheses : TsType → Text → Bool
  | union _, _ => true
  | raw _, inner => isLoose inner
  | _, _ => false

mutual

def render (nameOf : Text → Text) : TsType → Option Text
  | unwritten => none
  | keyword name => some name
  | literal value => some value.literal
  | ref rule => some (nameOf rule)
  | raw text => some text
  | array element => do
    let inner ← render nameOf element
    return (if needsParentheses element inner then "(" ++ inner ++ ")" else inner) ++ "[]"
  | union members => do
    return Text.join " | " (← renderAll nameOf members)

/-- The texts of several types. -/
def renderAll (nameOf : Text → Text) : List TsType → Option (List Text)
  | [] => some []
  | t :: ts => do
    let text ← render nameOf t
    let texts ← renderAll nameOf ts
    return text :: texts

end

end RuleTypes.TsType
