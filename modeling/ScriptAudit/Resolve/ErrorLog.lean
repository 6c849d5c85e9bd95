/-!
# Error log

Failures that do not end an analysis. Only so many are kept; the others are counted.
-/

namespace ScriptAudit

structure SoftError where
  label : String
  error : String
  stack : List String := []
  deriving DecidableEq, Repr

structure ErrorLog where
  kept : List SoftError := []
  dropped : Nat := 0
  deriving DecidableEq, Repr

def ErrorLog.record (log : ErrorLog) (cap : Nat) (e : SoftError) : ErrorLog :=
  if cap ≤ log.kept.length then { log with dropped := log.dropped + 1 }
  else { log with kept := log.kept ++ [e] }

end ScriptAudit
