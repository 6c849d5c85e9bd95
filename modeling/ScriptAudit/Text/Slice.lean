/-!
# Slices

A stretch of a list between two positions. A negative position counts from the end, a position
outside is moved to the nearer end, and a slice whose end precedes its start is empty.
-/

namespace ScriptAudit.Text

def clampPosition (n : Nat) (i : Int) : Nat :=
  if i < 0 then (i + n).toNat else min i.toNat n

def slice {α : Type} (xs : List α) (start : Int) (stop : Option Int) : List α :=
  let first := clampPosition xs.length start
  let last := match stop with
    | some i => clampPosition xs.length i
    | none => xs.length
  (xs.take last).drop first

def sliceText (s : String) (start : Int) (stop : Option Int) : String :=
  String.ofList (slice s.toList start stop)

end ScriptAudit.Text
