import ScriptAudit.Resolve.Answer

/-!
# Request sinks

The expressions that send a request: `fetch`, opening an `XMLHttpRequest`, `sendBeacon`, event
sources, web sockets, and images that are given an address.
-/

namespace ScriptAudit

open Engine

inductive SinkKind where
  | fetch | xhr | beacon | eventSource | webSocket | image
  deriving DecidableEq, Repr

def SinkKind.name : SinkKind → String
  | fetch => "fetch"
  | xhr => "xhr"
  | beacon => "beacon"
  | eventSource => "eventsource"
  | webSocket => "websocket"
  | image => "image"

structure RequestSink where
  node : Node
  kind : SinkKind
  url : Node
  options : Option Node := none
  method : Option Node := none
  receiver : Option Node := none

def httpMethods : List String := ["GET", "POST", "PUT", "PATCH", "DELETE", "HEAD", "OPTIONS"]

def httpMethod? (s : String) : Option String :=
  let upper := Text.upper s
  if httpMethods.contains upper then some upper else none

def xhrConstructors : List String := ["XMLHttpRequest", "XDomainRequest", "ActiveXObject"]

def streamConstructors : List (String × SinkKind) :=
  [("EventSource", .eventSource), ("WebSocket", .webSocket)]

namespace Facts

def isFetch (facts : Facts) (callee : Node) : Bool :=
  callee.branches.any fun b => facts.isGlobalName (some b) "fetch"

def isImage (facts : Facts) (n : Node) : Bool :=
  match n.kind with
  | .newExpression => facts.isGlobalName (n.child? .callee) "Image"
  | .identifier => facts.types.any fun t => t.typeOf? n == some "Image"
  | _ => false

end Facts

/-! ## Objects that send requests -/

def constructsXhr (facts : Facts) (n : Node) : Bool :=
  xhrConstructors.any (facts.isGlobalName (n.child? .callee))

def xhrOrigins (n : Node) : Engine (List Node) := do
  let facts ← facts
  match facts.model.binding? n with
  | none =>
    match facts.globals with
    | some g => return (g.lookup (← nameOf n)).map (·.definition)
    | none => return []
  | some b =>
    let written := b.violations.filterMap fun w =>
      if w.kind == .assignmentExpression then w.child? .right else none
    return b.initial.toList ++ written

def xhrArguments (n : Node) : Engine (List Node) := do
  match (← model).binding? n with
  | some b =>
    if b.isParam then return (← Ask.argumentPaths b none).map (·.argument) else return []
  | none => return []

def hasXhrType (facts : Facts) (n : Node) : Bool :=
  (facts.model.binding? n).isSome &&
    facts.types.any fun t => (t.typeOf? n).any xhrConstructors.contains

def xhrRule (holds : Node → Engine Bool) (n : Node) (depth : Nat) : Engine Bool := do
  let facts ← facts
  match n.kind with
  | .newExpression => return constructsXhr facts n
  | .conditionalExpression | .logicalExpression => n.branches.anyM holds
  | .assignmentExpression => (n.child? .right).toList.anyM holds
  | .sequenceExpression => (n.last? .expressions).toList.anyM holds
  | .callExpression =>
    ((← Ask.callTargets n (depth + 1)).flatMap fun t => Model.returnsOf t.1).anyM holds
  | .memberExpression =>
    match n.memberName?, n.child? .object with
    | some name, some object => (facts.model.assignedMembers object name).anyM holds
    | _, _ => return false
  | .identifier =>
    if hasXhrType facts n then return true
    if ← (← xhrOrigins n).anyM holds then return true
    (← xhrArguments n).anyM holds
  | _ => return false

def holdsXhr : Nat → Nat → Node → Engine Bool
  | 0, _, _ => pure false
  | room + 1, depth, n => do
    match (← session).xhr.get? n.ident with
    | some known => return known
    | none =>
      match ← guarded ⟨.xhr, n.ident, none⟩
          (xhrRule (holdsXhr room (depth + 1)) n depth) with
      | none => return false
      | some (result, whole) =>
        if whole then update fun s => { s with xhr := s.xhr.insert n.ident result }
        return result

def isXhr (n : Option Node) (depth : Nat) : Engine Bool := do
  match n with
  | none => return false
  | some n => holdsXhr ((← limits).maxDepth + 1 - depth) depth n

/-! ## Matching -/

def opensXhr (receiver : Option Node) (method : Node) : Engine Bool :=
  if (method.literalText?.bind httpMethod?).isSome then pure true else isXhr receiver 0

def callSink? (n : Node) : Engine (Option RequestSink) := do
  let facts ← facts
  match n.child? .callee, n.list .arguments with
  | some callee, first :: rest =>
    let receiver := callee.child? .object
    if facts.isFetch callee then
      return some { node := n, kind := .fetch, url := first, options := rest.head? }
    match callee.memberName?, rest with
    | some "open", url :: _ =>
      if ← opensXhr receiver first then
        return some { node := n, kind := .xhr, url := url, method := some first, receiver := receiver }
      else return none
    | some "sendBeacon", _ =>
      if facts.isGlobalName receiver "navigator" then
        return some { node := n, kind := .beacon, url := first, options := rest.head? }
      else return none
    | _, _ => return none
  | _, _ => return none

def constructionSink? (facts : Facts) (n : Node) : Option RequestSink :=
  (n.list .arguments).head?.bind fun url =>
    (streamConstructors.find? fun c => facts.isGlobalName (n.child? .callee) c.1).map fun c =>
      { node := n, kind := c.2, url := url }

def assignmentSink? (facts : Facts) (n : Node) : Option RequestSink :=
  match n.child? .left, n.child? .right with
  | some left, some right =>
    if n.operator == "=" && left.reads "src" && (left.child? .object).any facts.isImage then
      some { node := n, kind := .image, url := right }
    else none
  | _, _ => none

def requestSink? (n : Node) : Engine (Option RequestSink) := do
  match n.kind with
  | .callExpression => callSink? n
  | .newExpression => return constructionSink? (← facts) n
  | .assignmentExpression => return assignmentSink? (← facts) n
  | _ => return none

end ScriptAudit
