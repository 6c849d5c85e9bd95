import ScriptAudit.Request.Body

/-!
# Requests

What is known about each request that a program can send. A request inside a function that passes
its parameters on is resolved once for each caller, so that addresses and methods of one caller stay
together.
-/

namespace ScriptAudit

open Engine

structure RequestRecord where
  url : String
  method : String
  headers : Table String String
  params : List Param
  kind : SinkKind
  enclosingFunction : Option String
  responseType : Option String

/-! ## Addresses -/

def termText (term : Node) (place : Nat) : Engine String := do
  match ← ask (.values term none 0) with
  | [text] => return text
  | _ => return Node.gap (term.gapName place)

def addressForm (n : Node) : Engine String := do
  if n.kind == .templateLiteral && !(n.list .expressions).isEmpty then return n.placeholder
  else if n.kind == .binaryExpression && n.operator == "+" then
    return String.join (← n.concatTerms.zipIdx.mapM fun (t, i) => termText t i)
  else
    match if n.kind == .identifier || n.kind == .memberExpression then n.dotted? else none with
    | some name => return "$" ++ Node.gap name
    | none => return unknownValue

def addresses (n : Node) (readable : Bool) : Engine (List String) := do
  let values ← ask (.values n none 0)
  if !values.isEmpty then return values
  if readable then return [← addressForm n] else return []

def templateName? (e : Node) : Option String :=
  let name := match e.kind with
    | .identifier | .memberExpression => e.dotted?
    | .callExpression =>
      (e.list .arguments).head?.bind fun a => if a.kind == .identifier then a.name else none
    | _ => none
  match name with
  | some "" => none
  | name => name

def templateNames (n : Node) : List String :=
  if n.kind == .templateLiteral then (n.list .expressions).filterMap templateName? else []

/-! ## Options -/

structure RequestOptions where
  method : Option String := none
  headers : Table String String := Table.empty
  body : List Param := []

def optionsLiteral? (m : Model) (options : Node) : Option Node :=
  match options.kind with
  | .objectExpression => some options
  | .identifier =>
    ((m.binding? options).bind Binding.initial).bind fun value =>
      if value.kind == .objectExpression then some value else none
  | _ => none

def noteOption (members : Bool) (u : Usage) (p : Node) : Usage :=
  if p.kind != .property then u
  else
    let value := p.child? .value
    match p.propertyKey? with
    | some "method" => { u with method := u.method ++ namesIn value members }
    | some "body" => { u with body := u.body ++ namesIn value members }
    | some "headers" =>
      match value with
      | some v =>
        if v.kind == .objectExpression then
          let names := (v.list .properties).flatMap fun h => namesIn (h.child? .value) true
          { u with header := u.header ++ names }
        else u
      | none => u
    | _ => u

def noteOptions (m : Model) (members : Bool) (u : Usage) (options : Node) : Usage :=
  let u := if options.kind == .identifier then
      { u with options := u.options ++ options.name.toList }
    else u
  match optionsLiteral? m options with
  | some literal => (literal.list .properties).foldl (noteOption members) u
  | none => u

def fetchOptions (options : Option Node) : Engine RequestOptions := do
  match ← Ask.object options 0 with
  | none => return {}
  | some ref =>
    let methods ← Ask.values (← propertyOf? (some ref) "method") 0
    let headers ← headersOf (← propertyOf? (some ref) "headers")
    let body ← bodyParams (← propertyOf? (some ref) "body")
    return ⟨methods.findSome? httpMethod?, headers, body⟩

/-! ## Request objects -/

def pairedMethods (b : Binding) (methodName urlName : String) : Engine (Table String String) := do
  let paths := (← Ask.argumentPaths b none).filter fun p => !p.overloaded
  paths.foldlM (fun pairs path => do
    let methods ← ask (.values path.argument (some methodName) 0)
    let urls ← ask (.values path.argument (some urlName) 0)
    match methods.head?.bind httpMethod? with
    | some method => return urls.foldl (fun t url => t.insertNew url method) pairs
    | none => return pairs) Table.empty

def pairedBinding? (m : Model) (method url : Node) : Option (Binding × String × String) :=
  match method.memberName?, url.memberName?, method.child? .object, url.child? .object with
  | some methodName, some urlName, some methodObject, some urlObject =>
    match m.rootBinding? methodObject, m.rootBinding? urlObject with
    | some b, some b' =>
      if !methodName.isEmpty && !urlName.isEmpty && b.isParam && b == b' then
        some (b, methodName, urlName)
      else none
    | _, _ => none
  | _, _, _, _ => none

def passedMethods (sink : RequestSink) : Engine (Table String String) := do
  match sink.method.bind (pairedBinding? (← model) · sink.url) with
  | some (b, methodName, urlName) =>
    if (← boundArgument? b).isSome then return Table.empty
    else pairedMethods b methodName urlName
  | none => return Table.empty

def xhrMethods (sink : RequestSink) (urls : List String) : Engine (Table String String) := do
  let paired ← passedMethods sink
  if !paired.isEmpty then return paired
  match (← Ask.values sink.method 0).findSome? httpMethod? with
  | some method => return Table.ofList (urls.map (·, method))
  | none => return Table.empty

def receiverCalls (m : Model) (receiver : Node) : List (String × Node) :=
  let refs :=
    if receiver.kind == .identifier then
      ((m.binding? receiver).map (·.references)).getD []
    else (receiver.dotted?.map (m.chains.getD · [])).getD []
  refs.filterMap fun ref =>
    (m.memberOf? ref).bind fun member =>
      (m.calledBy? member).map (member.memberName?.getD "", ·)

def firstText : List Node → Engine (Option String)
  | [] => pure none
  | n :: rest => do
    match ← ask (.values n none 0) with
    | text :: _ => return some text
    | [] => firstText rest

structure XhrUse where
  headers : Table String String := Table.empty
  body : List Param := []
  usage : Usage

def XhrUse.withHeader (x : XhrUse) (header value : Node) : Engine (Table String String) := do
  match (← ask (.values header none 0)).head? with
  | some h =>
    let text := (← ask (.values value none 0)).head?.getD unknownValue
    return x.headers.insert (Text.lower h) text
  | none => return x.headers

def XhrUse.note (members : Bool) (x : XhrUse) (name : String) (call : Node) : Engine XhrUse := do
  match name, call.list .arguments with
  | "setRequestHeader", header :: value :: _ =>
    let headers ← x.withHeader header value
    return { x with
      headers := headers
      usage := { x.usage with header := x.usage.header ++ namesIn (some value) true } }
  | "send", payload :: _ =>
    let body ← bodyParams (some payload)
    let names := namesIn (some payload) (members || body.isEmpty)
    return { x with body := body, usage := { x.usage with body := x.usage.body ++ names } }
  | _, _ => return x

/-! ## Responses -/

def responseParsers : List String := ["json", "text", "arrayBuffer", "blob"]

def thenBodies (n : Node) : List Node → List Node
  | member :: call :: above =>
    if member.kind == .memberExpression && member.holds .object n
        && call.kind == .callExpression && call.holds .callee member then
      let here := if member.reads "then" then
          ((call.list .arguments).filter (·.kind.isFunction)).filterMap (·.child? .body)
        else []
      here ++ thenBodies call above
    else []
  | _ => []

def responseType? (m : Model) (n : Node) (function : Option Node) : Option String :=
  let bodies := (function.bind (·.child? .body)).toList ++ thenBodies n (m.ancestors n)
  let called := (bodies.flatMap Node.walkOwn).filterMap fun inner =>
    if inner.kind == .callExpression then (inner.child? .callee).bind Node.memberName? else none
  responseParsers.find? called.contains

/-! ## Building records -/

structure SinkDetails where
  methods : Table String String := Table.empty
  method : Option String := none
  headers : Table String String := Table.empty
  body : List Param := []
  usage : Usage
  responseType : Option String := none

def sinkDetails (sink : RequestSink) (urls : List String) (members : Bool) :
    Engine SinkDetails := do
  let m ← model
  let usage : Usage := { path := namesIn (some sink.url) members }
  let parsed := responseType? m sink.node (m.enclosingFunction? sink.node)
  match sink.kind with
  | .fetch =>
    let usage := (sink.options.map (noteOptions m members usage)).getD usage
    let o ← fetchOptions sink.options
    return { usage, method := o.method, headers := o.headers, body := o.body, responseType := parsed }
  | .beacon =>
    let body ← bodyParams sink.options
    let usage := { usage with body := namesIn sink.options true }
    return { usage, method := some "POST", body, responseType := parsed }
  | .xhr =>
    let methods ← xhrMethods sink urls
    let usage := { usage with method := namesIn sink.method members }
    let calls := (sink.receiver.map (receiverCalls m)).getD []
    let x ← calls.foldlM (fun (x : XhrUse) c => x.note members c.1 c.2) { usage }
    let assigned := (sink.receiver.map (m.assignedMembers · "responseType")).getD []
    let stated ← firstText assigned
    return { usage := x.usage, methods, headers := x.headers, body := x.body,
             responseType := stated.orElse fun _ => parsed }
  | _ => return { usage }

def requestParams (facts : Facts) (sink : RequestSink) (d : SinkDetails) : List Param :=
  let function := facts.model.enclosingFunction? sink.node
  let (body, used) := functionParams facts.model function d.body d.usage
  let inPath : List Param := (templateNames sink.url).map fun name =>
    { name := name, required := true, place := some .path }
  (inPath ++ body ++ used).map (·.withValidValues facts.constraints sink.node)

def sinkRecordsHere (sink : RequestSink) (traced : Bool) : Engine (List RequestRecord) := do
  let facts ← facts
  let urls ← addresses sink.url !traced
  if urls.isEmpty then return []
  let members := !(traced && urls.all fun url => !url.toList.contains '\x7b')
  let d ← sinkDetails sink urls members
  let params := requestParams facts sink d
  let function := facts.model.enclosingFunction? sink.node
  let name := function.bind facts.model.functionName?
  return urls.map fun url => {
    url := url
    method := (d.methods.get? url).getD (d.method.getD "GET")
    headers := d.headers
    params := params
    kind := sink.kind
    enclosingFunction := name
    responseType := d.responseType }

/-! ## Callers -/

structure Dependency where
  function : Node
  properties : List String

structure Dependencies where
  found : Table NodeId Dependency := Table.empty
  seen : List Nat := []
  following : List Node := []

namespace Dependencies

def follow (d : Dependencies) (b : Binding) : Dependencies :=
  { d with
    seen := b.uid :: d.seen
    following := d.following ++ (if b.sort.isVariable then b.initial.toList else []) }

def note (m : Model) (d : Dependencies) (n : Node) : Dependencies :=
  match m.rootBinding? n with
  | none => d
  | some b =>
    if d.seen.contains b.uid then d
    else
      match if b.isParam then b.function else none with
      | some f =>
        let read := ((m.memberOf? n).bind Node.memberName?).toList ++ b.key.toList
        { d with found := d.found.alter f.ident fun known =>
            ⟨f, ((known.map (·.properties)).getD []) ++ read⟩ }
      | none => d.follow b

def through (m : Model) : Nat → Dependencies → List Node → Dependencies
  | 0, d, _ => d
  | rounds + 1, d, roots =>
    let d := (roots.flatMap Node.walkOwn).foldl (note m) { d with following := [] }
    through m rounds d d.following

def rounds : Nat := 3

def ofSink (m : Model) (sink : RequestSink) : Dependencies :=
  through m rounds {} (sink.url :: sink.method.toList ++ sink.options.toList)

end Dependencies

structure PlannedCall where
  function : Node
  call : Node
  offset : Nat

def knownProperties (n : Node) : Engine (List String) := do
  match ← ask (.object n 0) with
  | some ref => return (← shapeAt ref).properties.keys
  | none => return []

def passesProperties (properties : List String) : List Node → Engine Bool
  | [] => pure false
  | a :: rest => do
    let known ← knownProperties a
    if known.any properties.contains then return true
    passesProperties properties rest

def forwardsParams (m : Model) (outer call : Node) : Bool :=
  let params := m.paramsOf outer
  ((call.list .arguments).flatMap Node.walkOwn).any fun n =>
    (m.rootBinding? n).any params.contains

def forwardingCalls (site : CallSite) : Engine (List PlannedCall) := do
  let facts ← facts
  match facts.model.enclosingFunction? site.call with
  | none => return []
  | some outer =>
    if (← isBound outer) || !forwardsParams facts.model outer site.call then return []
    let sites ← Ask.callSites outer
    return (sites.take facts.limits.maxCallers).map fun s => ⟨outer, s.call, s.offset⟩

def suits (dep : Dependency) (deep : Bool) (site : CallSite) : Engine Bool := do
  let limits ← limits
  if deep && !dep.properties.isEmpty then
    passesProperties dep.properties ((site.call.list .arguments).take limits.maxCallArgs)
  else return true

def plansFor (dep : Dependency) (deep : Bool) (cap : Nat) (plans : List (List PlannedCall)) :
    List CallSite → Engine (List (List PlannedCall))
  | [] => pure plans
  | site :: rest => do
    if !(← suits dep deep site) then plansFor dep deep cap plans rest
    else
      let here : PlannedCall := ⟨dep.function, site.call, site.offset⟩
      let chained ← forwardingCalls site
      let plans := plans ++ if chained.isEmpty then [[here]] else chained.map fun c => [c, here]
      if cap ≤ plans.length then return plans else plansFor dep deep cap plans rest

def callerPlans (sink : RequestSink) : Engine (List (List PlannedCall)) := do
  let facts ← facts
  let m := facts.model
  let found := (Dependencies.ofSink m sink).found
  let nearest := (m.ancestors sink.node).findSome? fun a =>
    if a.kind.isFunction then found.get? a.ident else none
  match nearest with
  | none => return []
  | some dep =>
    let deep := !(m.enclosingFunction? sink.node).any (· == dep.function)
    let cap := facts.limits.maxCallers
    return (← plansFor dep deep cap [] (← Ask.callSites dep.function)).take cap

def withPlan {α : Type} (plan : List PlannedCall) (x : Engine α) : Engine α :=
  plan.foldr (fun p x => withCall p.function p.call p.offset x) x

def sinkRecords (sink : RequestSink) : Engine (List RequestRecord) := do
  let traced ← (← callerPlans sink).mapM fun plan => withPlan plan (sinkRecordsHere sink true)
  let records := traced.flatten
  if records.isEmpty then sinkRecordsHere sink false else return records

def recordsAt (n : Node) : Engine (List RequestRecord) := do
  match ← requestSink? n with
  | some sink => sinkRecords sink
  | none => return []

def allRecords : Engine (List RequestRecord) := do
  return (← (← model).nodes.mapM recordsAt).flatten

end ScriptAudit
