import ScriptAudit.Text.Search
import ScriptAudit.Text.Slice

/-!
# Source map references

The address that a comment near the end of a script gives for its source map.
-/

namespace ScriptAudit

def sourceMapReach : Nat := 500

def sourceMapUrl? (code : String) : Option String :=
  let tail := Text.slice code.toList (-(sourceMapReach : Int)) none
  (Text.cut? "sourceMappingURL=".toList tail).bind fun (_, rest) =>
    let url := (rest.dropWhile fun c => c == ' ' || c == '\t').takeWhile (' ' < ·)
    if url.isEmpty then none else some (String.ofList url)

end ScriptAudit
