import RuleTypes.Text.Blank

/-!
# Emitting lines

An emitter collects text line by line and keeps an indentation level. A blank line is emitted as a
line break alone.
-/

namespace RuleTypes

structure Emitter where
  /-- What has been emitted. -/
  text : Text := []
  /-- The indentation of one level. -/
  step : Text := "  "
  level : Nat := 0

namespace Emitter

/-- Emits a line at the current indentation. -/
def emit (e : Emitter) (line : Text) : Emitter :=
  let indented :=
    if Text.isBlank line then [] else (List.replicate e.level e.step).flatten ++ line
  { e with text := e.text ++ (indented ++ "\n") }

/-- Emits text as it is, and a line break. -/
def emitRaw (e : Emitter) (text : Text) : Emitter :=
  { e with text := e.text ++ (text ++ "\n") }

def indent (e : Emitter) : Emitter := { e with level := e.level + 1 }

/-- One level less; at level zero nothing changes. -/
def dedent (e : Emitter) : Emitter := { e with level := e.level - 1 }

/-- Emits several lines, one after the other. -/
def emitLines (e : Emitter) (lines : List Text) : Emitter := lines.foldl emit e

end Emitter

end RuleTypes
