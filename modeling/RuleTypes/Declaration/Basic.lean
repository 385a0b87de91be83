import RuleTypes.Declaration.Emitter
import RuleTypes.TsType.Render

/-!
# Type declarations

A declaration gives a type an identifier. It is written on one line, unless its type is a union and
the line would be wider than `maxLineWidth`: then every member of the union stands on a line of its
own, behind a bar.

A block of declarations has a header, a banner and the declarations in order.
-/

namespace RuleTypes

structure Declaration where
  identifier : Text
  type : TsType
  exported : Bool := false

namespace Declaration

/-- The greatest width of a line that a union is left on. -/
def maxLineWidth : Nat := 80

/-- The beginning of a declaration, up to the equals sign. -/
def head (d : Declaration) : Text :=
  (if d.exported then "export type " else "type ") ++ d.identifier ++ " ="

/-- The lines of a union's members: a bar before each, a semicolon behind the last. -/
def memberLines : List Text → List Text
  | [] => []
  | [member] => ["| " ++ member ++ ";"]
  | member :: members => ("| " ++ member) :: memberLines members

/-- Emits a declaration. It fails when the type cannot be written. -/
def emit (nameOf : Text → Text) (e : Emitter) (d : Declaration) : Option Emitter := do
  let type ← d.type.render nameOf
  let single := d.head ++ " " ++ type ++ ";"
  match d.type with
  | .union members =>
    if single.length ≤ maxLineWidth then return e.emitRaw single
    else
      let texts ← TsType.renderAll nameOf members
      return ((e.emitRaw d.head).indent.emitLines (memberLines texts)).dedent
  | _ => return e.emitRaw single

/-- The text of a declaration. -/
def render (nameOf : Text → Text) (d : Declaration) : Option Text := do
  return (← emit nameOf {} d).text

end Declaration

/-- The first line of a block when no other is given. -/
def defaultHeader : Text := "/* eslint-disable */"

/-- The line behind the header. -/
def banner : Text := "// These types were autogenerated by pegtypes"

/-- The text of a block of declarations. -/
def renderBlock (nameOf : Text → Text) (header : Option Text) (declarations : List Declaration) :
    Option Text := do
  let start := (({} : Emitter).emitRaw (header.getD defaultHeader)).emitRaw banner
  return (← declarations.foldlM (Declaration.emit nameOf) start).text

end RuleTypes
