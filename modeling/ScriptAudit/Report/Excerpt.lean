import ScriptAudit.Text.Lines
import ScriptAudit.Text.Slice

/-!
# Source excerpts

A few numbered lines around a place in a text. A line that is too long is cut to a window around the
column, with dots where something is missing.
-/

namespace ScriptAudit

def excerptWindow (text : List Char) (anchor width : Int) : List Char :=
  let length : Int := text.length
  let first := max 0 (min (anchor - width.fdiv 2) (length - width))
  (if 0 < first then "...".toList else [])
    ++ Text.slice text first (some (first + width))
    ++ (if first + width < length then "...".toList else [])

def excerptLine (text : List Char) (anchor width : Int) : List Char :=
  if width < text.length then excerptWindow text anchor width else text

def excerpt (source : String) (line column : Option Int) (context width : Int) : String :=
  let lines := Text.lines source
  let line := line.getD 0
  if line == 0 || (lines.length : Int) < line then ""
  else
    let first := max 1 (line - (context - 1).fdiv 2)
    let last : Int := min (lines.length : Int) (first + context - 1)
    let shown := (lines.zipIdx 1).filter fun (_, i) => first ≤ (i : Int) && (i : Int) ≤ last
    "\n".intercalate (shown.map fun (text, i) =>
      let anchor := if (i : Int) == line then column.getD 0 else 0
      toString i ++ ": " ++ String.ofList (excerptLine text anchor width))

end ScriptAudit
