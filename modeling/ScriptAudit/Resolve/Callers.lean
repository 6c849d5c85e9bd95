import ScriptAudit.Resolve.Assigned
import ScriptAudit.Resolve.Columns
import ScriptAudit.Resolve.Question

/-!
# Callers

The calls that invoke a function, the arguments they pass for a parameter, and the texts it can take
because of them.
-/

namespace ScriptAudit

open Engine

structure ArgumentPath where
  argument : Node
  call : Node
  index : Nat
  route : Route
  overloaded : Bool := false

/-! ## How a function is bound -/

def memberRoute (facts : Facts) (left : Node) : Route :=
  let object := left.child? .object
  if left.memberName?.isNone then .computedMember
  else if facts.isGlobalObject object then .globalAlias
  else if object.any (·.reads "prototype") then .prototypeMethod
  else .assignedMember

def bindingRoute (facts : Facts) (f : Node) : Route :=
  let m := facts.model
  match m.parent? f, m.fieldOf? f with
  | some p, some field =>
    match p.kind, field with
    | .property, _ => .objectProperty
    | .methodDefinition, _ => .classMethod
    | .callExpression, .arguments | .newExpression, .arguments => .callbackArgument
    | .returnStatement, _ | .arrowFunctionExpression, .body => .returnedFromFactory
    | .assignmentExpression, .right =>
      match p.child? .left with
      | some left =>
        match left.kind with
        | .identifier => if (m.binding? left).isNone then .globalAlias else .directName
        | .memberExpression => memberRoute facts left
        | _ => .directName
      | none => .directName
    | _, _ => .directName
  | _, _ => .directName

/-! ## Calls of a function -/

def invocation? (m : Model) (a : Alias) : Option CallSite :=
  match m.parent? a.node with
  | none => none
  | some p =>
    if p.kind.isCall && m.fieldOf? a.node == some .callee then some ⟨p, 0, a.route⟩
    else
      (m.memberOf? a.node).bind fun member =>
        if member.reads "call" then (m.calledBy? member).map (⟨·, 1, a.route⟩) else none

def distinctSites (cap : Nat) (sites : List CallSite) : List CallSite :=
  (distinctBy (·.call) sites).take cap

namespace Ask

def callSites (f : Node) : Engine (List CallSite) := do
  match (← session).callSites.get? f.ident with
  | some sites => return sites
  | none =>
    let facts ← facts
    let found ← guarded ⟨.callers, f.ident, none⟩ do
      let reached := ⟨f, bindingRoute facts f⟩ :: (← ask (.aliases f))
      return distinctSites facts.limits.maxCallers (reached.filterMap (invocation? facts.model))
    match found with
    | none => return []
    | some (sites, whole) =>
      if whole && (← session).frames.isEmpty then
        update fun s => { s with callSites := s.callSites.insert f.ident sites }
      return sites

end Ask

/-! ## Arguments for a parameter -/

def overloadedPaths (site : CallSite) : List ArgumentPath :=
  (((site.call.list .arguments).zipIdx).drop site.offset).reverse.map fun (a, i) =>
    { argument := a, call := site.call, index := i, route := site.route, overloaded := true }

def pathsAt (index : Nat) (wantsProperty : Bool) (site : CallSite) : List ArgumentPath :=
  let arguments := site.call.list .arguments
  let position := index + site.offset
  if Frame.hidesPosition arguments position then []
  else
    match arguments[position]? with
    | some a => [{ argument := a, call := site.call, index := position, route := site.route }]
    | none => if wantsProperty then overloadedPaths site else []

namespace Ask

def argumentPaths (b : Binding) (property : Option String) : Engine (List ArgumentPath) := do
  match b.function, b.paramIndex with
  | some f, some index =>
    if b.rest then return []
    else return (← callSites f).flatMap (pathsAt index (property.isSome || b.key.isSome))
  | _, _ => return []

def readPath (argument : Node) (keys : List String) (depth : Nat) : Engine (List String) :=
  match keys with
  | [] => ask (.values argument none (depth + 1))
  | [key] => ask (.values argument (some key) (depth + 1))
  | key :: rest => do
    match ← objectProperty (some argument) key (depth + 1) with
    | some target => readPath target rest depth
    | none => return []

def readPaths (keys : List String) (depth : Nat) (matched : Option Node) :
    List ArgumentPath → Engine (List (List String))
  | [] => pure []
  | path :: rest => do
    if path.overloaded then
      if matched.any (· == path.call) then readPaths keys depth matched rest
      else
        let values ← readPath path.argument keys depth
        if values.isEmpty then readPaths keys depth matched rest
        else return values :: (← readPaths keys depth (some path.call) rest)
    else
      let values ← readPath path.argument keys depth
      return values :: (← readPaths keys depth matched rest)

def paramValues (b : Binding) (property : Option String) (depth : Nat) :
    Engine (List String) := do
  let keys := b.key.toList ++ property.toList
  let detail := if keys.isEmpty then none else some (".".intercalate keys)
  let s ← session
  match if s.frames.isEmpty then s.paramValues.get? (b.uid, detail) else none with
  | some values => return values
  | none =>
    match ← guarded ⟨.callers, b.identifier.ident, detail⟩ do
        readPaths keys depth none (← argumentPaths b property) with
    | none => return []
    | some (groups, whole) =>
      let values := unite (← limits).maxValues groups
      if whole && s.frames.isEmpty then
        update fun s => { s with paramValues := s.paramValues.insert (b.uid, detail) values }
      return values

end Ask

end ScriptAudit
