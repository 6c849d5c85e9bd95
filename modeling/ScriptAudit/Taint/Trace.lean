import ScriptAudit.Resolve.Answer
import ScriptAudit.Taint.Sanitizer

/-!
# Tracing taint

Where the value of an expression comes from. Sources are the browser's location, the document's
address, cookie and referrer, the window's name, stored items and message data.
-/

namespace ScriptAudit

open Engine

def locationProperties : List String := ["hash", "search", "href", "pathname"]

def documentProperties : List String := ["cookie", "URL", "documentURI", "referrer", "baseURI"]

def storageObjects : List String := ["localStorage", "sessionStorage"]

def passThroughFunctions : List String :=
  ["decodeURIComponent", "decodeURI", "unescape", "atob", "String"]

def passThroughConstructors : List String := ["URL", "URLSearchParams", "String"]

def policyMethods : List String := ["createHTML", "createScript", "createScriptURL"]

namespace Facts

def isLocation (facts : Facts) (n : Option Node) : Bool :=
  facts.isGlobalName n "location" ||
    n.any fun n => n.reads "location" && facts.isGlobalName (n.child? .object) "document"

end Facts

def Taint.source (label : String) (n : Node) : Taint where
  kind := .userControlled
  label := some label
  place := some (n.line?.map Int.ofNat, n.column?.map Int.ofNat)

def memberSource? (facts : Facts) (n : Node) : Option Taint :=
  let object := n.child? .object
  n.memberName?.bind fun name =>
    if locationProperties.contains name && facts.isLocation object then
      some (.source ("location." ++ name) n)
    else if name == "location"
        && (facts.isGlobalObject object || facts.isGlobalName object "document") then
      some (.source "location" n)
    else if documentProperties.contains name && facts.isGlobalName object "document" then
      some (.source ("document." ++ name) n)
    else if name == "name" && facts.isGlobalObject object then some (.source "window.name" n)
    else none

def readsEventData (m : Model) (events : List Nat) (n : Node) : Bool :=
  n.reads "data" && ((n.child? .object).bind m.rootBinding?).any fun b => events.contains b.uid

def callSource? (facts : Facts) (call : Node) : Option Taint :=
  (call.child? .callee).bind fun callee =>
    let receiver := callee.child? .object
    callee.memberName?.bind fun name =>
      if name == "getItem" && storageObjects.any (facts.isGlobalName receiver) then
        some (.source (match callee.dotted? with
          | some "" | none => "storage"
          | some s => s) call)
      else if (name == "toString" || name == "valueOf") && facts.isLocation receiver then
        some (.source "location" call)
      else none

/-! ## Rules

Each rule is given `trace` for the expressions one level down. -/

section Rules

variable (trace : Option Node → Engine Taint) (depth : Nat)

def traceAll (nodes : List Node) : Engine Taint :=
  return Taint.combine (← nodes.mapM fun n => trace (some n))

def traceProperty (object : Node) (key : String) : Engine Taint := do
  if (← facts).isLocation (some object) && locationProperties.contains key then
    return .source ("location." ++ key) object
  match ← Ask.objectProperty (some object) key (depth + 1) with
  | some value => trace (some value)
  | none => trace (some object)

def callbackSource? (m : Model) (function : Node) (b : Binding) : Option (Node × String) :=
  (m.parent? function).bind fun call =>
    if call.kind == .callExpression && m.fieldOf? function == some .arguments then
      (call.child? .callee).bind fun callee =>
        match callee.memberName?, callee.child? .object with
        | some method, some receiver =>
          let element := if method == "then" then some 0 else iterationMethods.lookup method
          if element.isSome && b.paramIndex == element && b.key.isNone then some (receiver, method)
          else none
        | _, _ => none
    else none

def traceSupplied (b : Binding) : Engine Taint := do
  let paths := (← Ask.argumentPaths b none).take (← limits).maxCallers
  let supplied ← (paths.filter fun p => !p.overloaded).mapM fun path =>
    match b.key with
    | some key => traceProperty trace depth path.argument key
    | none => trace (some path.argument)
  let fallback ← b.fallback.toList.mapM fun d => trace (some d)
  let classes := supplied ++ fallback
  return if classes.isEmpty then .dynamic else Taint.combine classes

def traceParam (b : Binding) : Engine Taint := do
  let facts ← facts
  let s ← session
  match b.function with
  | none => return .dynamic
  | some f =>
    if s.eventParams.contains b.uid then return .dynamic
    else if s.handlers.contains f.ident && b.paramIndex == some 0 && b.key == some "data" then
      return .source "event.data" b.identifier
    else
      match callbackSource? facts.model f b with
      | some (receiver, method) =>
        if method != "then" && facts.types.any (·.isNonIterable receiver) then return .dynamic
        else trace (some receiver)
      | none => traceSupplied trace depth b

def tracePattern (b : Binding) (source : Node) : Engine Taint := do
  match b.key with
  | some key =>
    if (← facts).isLocation (some source) && locationProperties.contains key then
      return .source ("location." ++ key) b.identifier
    else trace (some source)
  | none => trace (some source)

def traceWrites (b : Binding) : Engine (List Taint) := do
  let traced ← b.violations.mapM fun w => do
    match w.kind with
    | .assignmentExpression | .forInStatement | .forOfStatement =>
      return [← trace (w.child? .right)]
    | .variableDeclarator => return [← trace (w.child? .initial)]
    | _ => return []
  return traced.flatten

def traceLoop (b : Binding) : Engine Taint := do
  let m ← model
  match b.declarator.bind m.grandparent? with
  | some loop => if loop.kind == .forOfStatement then trace (loop.child? .right) else return .dynamic
  | none => return .dynamic

def traceVariable (b : Binding) : Engine Taint := do
  let declared ← b.initial.toList.mapM fun v => trace (some v)
  let taken ← b.source.toList.mapM fun s => tracePattern trace b s
  if (← limits).maxMutations < b.violations.length then
    return Taint.combine (.dynamic :: declared ++ taken)
  let classes := declared ++ taken ++ (← traceWrites trace b)
  if classes.isEmpty then traceLoop trace b else return Taint.combine classes

def traceIdentifier (n : Node) : Engine Taint := do
  let facts ← facts
  match facts.model.binding? n with
  | none =>
    if facts.model.isUnboundName n "location" then return .source "location" n
    match facts.globals with
    | none => return .dynamic
    | some g =>
      match (g.lookup (← nameOf n)).map (·.definition) with
      | [] => return .dynamic
      | definitions => traceAll trace definitions
  | some b =>
    match ← boundArgument? b with
    | some (index, passed) => underOuter index (trace (some passed.argument))
    | none =>
      match b.sort with
      | .function | .classDecl | .imported => return .dynamic
      | .param => traceParam trace depth b
      | _ => traceVariable trace b

def traceComputed (n object : Node) : Engine Taint := do
  let base ← trace (some object)
  if base.isUserControlled then return base
  match ← ask (.object object (depth + 1)) with
  | none => return .dynamic
  | some ref =>
    let keys ← Ask.values (n.child? .property) (depth + 1)
    let classes ← keys.mapM fun key => do
      match ← propertyOf? (some ref) key with
      | some value => return [← trace (some value)]
      | none => return []
    return Taint.combine (.dynamic :: classes.flatten)

def traceNamed (object : Node) (name : String) : Engine Taint := do
  let base ← trace (some object)
  if base.isUserControlled then return base
  let defined ← Ask.objectProperty (some object) name (depth + 1)
  let inShape ← defined.toList.mapM fun v => trace (some v)
  let assigned ← ((← model).assignedMembers object name).mapM fun v => trace (some v)
  let classes := inShape ++ assigned
  return if classes.isEmpty then .dynamic else Taint.combine classes

def traceMember (n : Node) : Engine Taint := do
  let facts ← facts
  match memberSource? facts n with
  | some t => return t
  | none =>
    if readsEventData facts.model (← session).eventParams n then return .source "event.data" n
    match n.child? .object, n.memberName? with
    | none, _ => return .dynamic
    | some object, none => traceComputed trace depth n object
    | some object, some name =>
      if name == "length" then return .dynamic else traceNamed trace depth object name

def passedThrough? (facts : Facts) (callee : Node) (arguments : List Node) :
    Option (List Node) :=
  let receiver := callee.child? .object
  if facts.model.isUnbound callee && callee.name.any passThroughFunctions.contains then
    some arguments
  else
    match callee.memberName?, arguments with
    | some "assign", _ => if facts.isGlobalName receiver "Object" then some arguments else none
    | some "parse", first :: _ => if facts.isGlobalName receiver "JSON" then some [first] else none
    | some name, first :: _ => if policyMethods.contains name then some [first] else none
    | _, _ => none

def traceReturned (call callee : Node) : Engine Taint := do
  let classes ← Ask.foldReturns call depth [] fun found returned =>
    return found ++ [← trace (some returned)]
  if !classes.isEmpty then return Taint.combine classes
  if callee.memberName?.isNone then return .dynamic
  let base ← trace (callee.child? .object)
  return if base.isUserControlled then base else .dynamic

def traceCall (call : Node) : Engine Taint := do
  let facts ← facts
  match call.child? .callee with
  | none => return .dynamic
  | some callee =>
    if isSanitizerCall facts.model call then return .dynamic
    match callSource? facts call with
    | some t => return t
    | none =>
      match passedThrough? facts callee (call.list .arguments) with
      | some [one] => trace (some one)
      | some arguments => traceAll trace arguments
      | none => traceReturned trace depth call callee

def taintRule (n : Node) : Engine Taint := do
  match n.kind with
  | .templateLiteral => traceAll trace (n.list .expressions)
  | .binaryExpression =>
    if n.operator == "+" then
      return Taint.combine [← trace (n.child? .left), ← trace (n.child? .right)]
    else return .dynamic
  | .logicalExpression =>
    return Taint.combine [← trace (n.child? .left), ← trace (n.child? .right)]
  | .conditionalExpression =>
    return Taint.combine [← trace (n.child? .consequent), ← trace (n.child? .alternate)]
  | .spreadElement | .awaitExpression => trace (n.child? .argument)
  | .sequenceExpression => trace (n.last? .expressions)
  | .assignmentExpression => trace (n.child? .right)
  | .arrayExpression => traceAll trace (n.list .elements)
  | .objectExpression =>
    return Taint.combine (← (n.list .properties).mapM fun p =>
      trace (p.child? (if p.kind == .property then .value else .argument)))
  | .identifier => traceIdentifier trace depth n
  | .memberExpression => traceMember trace depth n
  | .callExpression => traceCall trace depth n
  | .newExpression =>
    if passThroughConstructors.any ((← facts).isGlobalName (n.child? .callee)) then
      traceAll trace (n.list .arguments)
    else return .dynamic
  | _ => return .dynamic

end Rules

def traceWithin : Nat → Nat → Option Node → Engine Taint
  | _, _, none => pure .dynamic
  | 0, _, some n => do
    if n.kind == .literal then return .literal
    truncate
    return .dynamic
  | room + 1, depth, some n =>
    if n.kind == .literal then pure .literal
    else
      consider ⟨.taint, n.ident, none⟩ depth .dynamic (·.taints.get? n.ident)
        (fun a s => { s with taints := s.taints.insert n.ident a })
        (some (taintRule (traceWithin room (depth + 1)) depth n))

def traceSource (n : Option Node) (depth : Nat) : Engine Taint := do
  traceWithin ((← limits).maxDepth + 1 - depth) depth n

end ScriptAudit
