import ScriptAudit.Resolve.State

/-!
# Asking

The questions through which the rules of resolution refer to each other. A rule asks and never calls
another rule, so each can be read by itself.
-/

namespace ScriptAudit

open Engine

namespace Ask

/-! ## Asking about a node that may be missing -/

def values (n : Option Node) (depth : Nat) : Engine (List String) :=
  match n with
  | some n => ask (.values n none depth)
  | none => pure []

def property (n : Option Node) (name : String) (depth : Nat) : Engine (List String) :=
  match n with
  | some n => ask (.values n (some name) depth)
  | none => pure []

def object (n : Option Node) (depth : Nat) : Engine (Option ShapeRef) :=
  match n with
  | some n => ask (.object n depth)
  | none => pure none

def array (n : Option Node) (depth : Nat) : Engine (Option (List Node)) :=
  match n with
  | some n => ask (.array n depth)
  | none => pure none

def functions (n : Option Node) (depth : Nat) : Engine (List Node) :=
  match n with
  | some n => ask (.functions n depth)
  | none => pure []

def objectProperty (n : Option Node) (key : String) (depth : Nat) : Engine (Option Node) := do
  propertyOf? (← object n depth) key

def takenFrom (argument : Node) (key : Option String) (depth : Nat) : Engine (Option Node) :=
  match key with
  | some key => objectProperty (some argument) key depth
  | none => pure (some argument)

/-! ## Functions that can be called -/

def classConstructor? (cls : Node) : Option Node :=
  match (cls.child? .body).bind fun b => (b.list .body).find? (·.sort == "constructor") with
  | some method => method.child? .value
  | none => none

def callableOf? (f : Node) : Option Node :=
  if f.kind.isClass then classConstructor? f
  else if f.kind.isFunction then some f
  else none

def callables (n : Option Node) (depth : Nat) : Engine (List Node) :=
  return distinct ((← functions n depth).filterMap callableOf?)

def callTargets (call : Node) (depth : Nat) : Engine (List (Node × Nat)) := do
  match call.child? .callee with
  | none => return []
  | some callee =>
    if callee.reads "call" && call.kind == .callExpression then
      return (← callables (callee.child? .object) depth).map (·, 1)
    else
      return (← callables (some callee) depth).map (·, 0)

def foldReturns {β : Type} (call : Node) (depth : Nat) (start : β)
    (step : β → Node → Engine β) : Engine β := do
  (← callTargets call (depth + 1)).foldlM (fun acc (function, offset) => do
    if ← isBound function then return acc
    withCall function call offset ((Model.returnsOf function).foldlM step acc)) start

end Ask

end ScriptAudit
