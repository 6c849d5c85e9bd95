import ScriptAudit.Resolve.Answer
import ScriptAudit.Taint.Finding

/-!
# Message handlers

Functions that are registered to receive message events, and how they check where a message comes
from.
-/

namespace ScriptAudit

open Engine

inductive OriginCheck where
  | strong | weak | missing
  deriving DecidableEq, Repr

def OriginCheck.name : OriginCheck → String
  | strong => "strong"
  | weak => "weak"
  | missing => "none"

structure MessageHandler where
  function : Node
  event : Option Binding
  check : OriginCheck

/-! ## Registration -/

def registeredBy? (facts : Facts) (call : Node) : Option Node :=
  match call.child? .callee, call.list .arguments with
  | some callee, event :: handler :: _ =>
    let registers :=
      if callee.reads "addEventListener" then facts.isGlobalObject (callee.child? .object)
      else facts.model.isUnboundName callee "addEventListener"
    if call.kind == .callExpression && event.literalText? == some "message" && registers then
      some handler
    else none
  | _, _ => none

def assignedHandler? (facts : Facts) (n : Node) : Option Node :=
  if n.kind == .assignmentExpression && n.operator == "="
      && facts.isGlobalName (n.child? .left) "onmessage" then n.child? .right
  else none

def registeredHandlers : Engine (List Node) := do
  let facts ← facts
  let m := facts.model
  let sources := m.calls.filterMap (registeredBy? facts) ++ m.nodes.filterMap (assignedHandler? facts)
  return distinct (← sources.mapM fun h => Ask.callables (some h) 0).flatten

def firstParam? (m : Model) (function : Node) : Option Binding :=
  (m.paramsOf function).find? fun b => b.paramIndex == some 0 && b.key.isNone

/-! ## Origin checks -/

def readsOrigin (m : Model) (event : Option Binding) (n : Node) : Bool :=
  n.reads "origin" && (n.child? .object).any fun o =>
    o.kind == .identifier &&
      ((event.any fun e => (m.binding? o).any (· == e)) || m.isUnboundName o "event")

def originNodes (m : Model) (function : Node) (event : Option Binding) : List Node :=
  let inBody := ((function.child? .body).map Node.walk).getD []
  let taken := (m.paramsOf function).filter fun b =>
    b.paramIndex == some 0 && b.key == some "origin"
  inBody.filter (readsOrigin m event) ++ taken.flatMap (·.references)

def originUses (m : Model) (origin : Node) : List Node :=
  let kept := (m.parent? origin).bind fun p =>
    if p.kind == .variableDeclarator && m.fieldOf? origin == some .initial then
      (p.child? .id).bind m.binding?
    else none
  match kept with
  | some b => if b.references.isEmpty then [origin] else b.references
  | none => [origin]

def isKnownCollection (collection : Option Node) : Engine Bool := do
  if (← Ask.array collection 0).any (!·.isEmpty) then return true
  let types := (← facts).types
  return collection.any fun c =>
    c.kind == .identifier && types.any fun t => t.typeOf? c == some "Set"

def isStrongUse (origin : Node) : Engine Bool := do
  let m ← model
  match m.parent? origin with
  | none => return false
  | some p =>
    if p.kind == .binaryExpression then
      return ["===", "==", "!==", "!="].contains p.operator
    else if p.kind.isCall && m.fieldOf? origin == some .arguments then
      match p.child? .callee with
      | some callee =>
        if callee.memberName?.any ["includes", "indexOf", "has"].contains then
          isKnownCollection (callee.child? .object)
        else return false
      | none => return false
    else return false

def originCheck (function : Node) (event : Option Binding) : Engine OriginCheck := do
  let m ← model
  let origins := originNodes m function event
  if origins.isEmpty then return .missing
  if ← (origins.flatMap (originUses m)).anyM isStrongUse then return .strong
  return .weak

def noteHandler (function : Node) : Engine MessageHandler := do
  let event := firstParam? (← model) function
  update fun s => { s with
    handlers := function.ident :: s.handlers
    eventParams := (event.map (·.uid)).toList ++ s.eventParams }
  return ⟨function, event, ← originCheck function event⟩

def messageHandlers : Engine (List MessageHandler) := do
  (← registeredHandlers).mapM noteHandler

def MessageHandler.emission? (h : MessageHandler) : Option Emission :=
  match h.check with
  | .missing => some (.pattern "missing_origin_check" "message handler" h.function .medium)
  | .weak => some (.pattern "weak_origin_check" "message handler" h.function .low)
  | .strong => none

end ScriptAudit
