import ScriptAudit.Report.Excerpt
import ScriptAudit.Resolve.State

/-!
# Findings

A reported place in a program: a sink that a user-controlled value reaches, or a dangerous pattern.
The same finding at the same place is reported once.
-/

namespace ScriptAudit

inductive Severity where
  | high | medium | low
  deriving DecidableEq, Repr

def Severity.name : Severity → String
  | high => "high"
  | medium => "medium"
  | low => "low"

structure Finding where
  sort : String
  sink : String
  line : Option Nat
  column : Option Nat
  taintSource : Option String
  severity : Severity
  sanitized : Bool
  excerpt : String

structure Emission where
  isPattern : Bool
  sort : String
  sink : String
  node : Node
  taintSource : Option String := none
  severity : Severity
  sanitized : Bool := false

namespace Emission

def pattern (sort sink : String) (n : Node) (severity : Severity) : Emission :=
  { isPattern := true, sort := sort, sink := sink, node := n, severity := severity }

def key (e : Emission) : String × String × Option Nat × Option Nat :=
  (e.sort, e.sink, e.node.line?, e.node.column?)

def finding (facts : Facts) (e : Emission) : Finding where
  sort := e.sort
  sink := e.sink
  line := e.node.line?
  column := e.node.column?
  taintSource := e.taintSource
  severity := e.severity
  sanitized := e.sanitized
  excerpt := excerpt facts.model.source (e.node.line?.map Int.ofNat) (e.node.column?.map Int.ofNat)
    facts.limits.excerptLines facts.limits.excerptWidth

def distinctOnes (es : List Emission) : List Emission :=
  distinctBy key es

end Emission

end ScriptAudit
