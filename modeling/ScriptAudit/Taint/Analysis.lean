import ScriptAudit.Taint.Handler
import ScriptAudit.Taint.Trace

/-!
# Taint analysis

Sinks that must not receive user-controlled values: markup, code, addresses, property names and
regular expressions. Each is traced back, and reported if a source is found.
-/

namespace ScriptAudit

open Engine

/-! ## Sinks -/

structure TaintSink where
  sort : String
  name : String
  value : Node
  severity : Severity

def markupProperties : List String := ["innerHTML", "outerHTML", "srcdoc"]

def markupMethods : List (String × Severity × Nat) :=
  [("write", .high, 0), ("writeln", .high, 0), ("insertAdjacentHTML", .high, 1),
    ("createContextualFragment", .high, 0), ("parseFromString", .medium, 0), ("html", .medium, 0),
    ("append", .medium, 0), ("prepend", .medium, 0), ("after", .medium, 0), ("before", .medium, 0),
    ("replaceWith", .medium, 0)]

def documentMethods : List String := ["write", "writeln"]

def codeFunctions : List String := ["eval", "setTimeout", "setInterval", "setImmediate"]

def addressAttributes : List String := ["href", "src", "action", "formaction", "xlink:href", "data"]

def redirectMethods : List String := ["assign", "replace"]

/-! ## Assignments -/

def isLocationTarget (facts : Facts) (left : Node) : Bool :=
  let object := left.child? .object
  let ofWindow (o : Option Node) : Bool := facts.isGlobalObject o || facts.isGlobalName o "document"
  if left.reads "location" then ofWindow object
  else
    facts.isGlobalName object "location" ||
      object.any fun o => o.reads "location" && ofWindow (o.child? .object)

def memberSink? (facts : Facts) (left right : Node) : Option TaintSink :=
  match left.memberName? with
  | some name =>
    if markupProperties.contains name then some ⟨"xss", name, right, .high⟩
    else if (name == "location" || name == "href") && isLocationTarget facts left then
      let shown := match left.dotted? with
        | some "" | none => "location"
        | some s => s
      some ⟨"open_redirect", shown, right, .medium⟩
    else if name == "__proto__" then some ⟨"prototype_pollution", "__proto__", right, .high⟩
    else none
  | none =>
    match left.child? .property with
    | some key =>
      if left.computed && key.literalText?.isNone then
        some ⟨"prototype_pollution", "computed assignment", key, .medium⟩
      else none
    | none => none

def assignedSink? (facts : Facts) (n : Node) : Option TaintSink :=
  match n.child? .left, n.child? .right with
  | some left, some right =>
    if n.operator != "=" && n.operator != "+=" then none
    else
      match left.kind with
      | .identifier =>
        if facts.model.isUnboundName left "location" then
          some ⟨"open_redirect", "location", right, .medium⟩
        else none
      | .memberExpression => memberSink? facts left right
      | _ => none
  | _, _ => none

/-! ## Calls -/

def globalCallee? (facts : Facts) (callee : Node) : Option String :=
  if facts.model.isUnbound callee then callee.name
  else facts.globals.bind (·.globalMember? callee)

inductive CallCheck where
  | sink (s : TaintSink)
  | pattern (sort name : String) (severity : Severity)
  | nothing

def attributeSink? (name : String) (value : Node) : Option TaintSink :=
  let shown := "setAttribute(" ++ name ++ ")"
  if Text.startsWith name "on" || name == "srcdoc" then some ⟨"xss", shown, value, .high⟩
  else if addressAttributes.contains name then some ⟨"xss", shown, value, .medium⟩
  else none

def returnsParam (m : Model) (f : Node) : Bool :=
  match m.paramsOf f, Model.returnsOf f with
  | first :: _, r :: rest => (r :: rest).all fun r => (m.rootBinding? r).any (· == first)
  | _, _ => false

def passesInput (rule : String) (value : Node) : Engine Bool := do
  let m ← model
  if policyMethods.contains rule then
    return (← Ask.callables (some value) 0).any (returnsParam m)
  else return false

def passingRule? (ref : ShapeRef) (size : Nat) : List (String × Node) → Engine (Option String)
  | [] => do
    checkSize ref size
    return none
  | (rule, value) :: rest => do
    checkSize ref size
    if ← passesInput rule value then return some rule else passingRule? ref size rest

def checkPolicy (arguments : List Node) : Engine CallCheck := do
  match arguments with
  | _ :: policy :: _ =>
    match ← ask (.object policy 0) with
    | none => return .nothing
    | some ref =>
      let properties := (← shapeAt ref).properties
      match ← passingRule? ref properties.size properties.entries with
      | some rule => return .pattern "trusted_types_passthrough" ("createPolicy." ++ rule) .medium
      | none => return .nothing
  | _ => return .nothing

def CallCheck.ofSink? : Option TaintSink → CallCheck
  | some s => .sink s
  | none => .nothing

def checkCodeCall (name : String) (arguments : List Node) : Engine (Option CallCheck) := do
  match arguments.head?, arguments.getLast? with
  | some first, some last =>
    if codeFunctions.contains name then
      let sink : CallCheck := .sink ⟨"code_injection", name, first, .high⟩
      if name == "eval" then return some sink
      else if (← Ask.callables (some first) 0).isEmpty then return some sink
      else return some .nothing
    else if name == "Function" then return some (.sink ⟨"code_injection", "Function", last, .high⟩)
    else return none
  | _, _ => return none

def checkGlobalCall (callee : Node) (arguments : List Node) : Engine (Option CallCheck) := do
  match globalCallee? (← facts) callee with
  | some name => checkCodeCall name arguments
  | none => return none

def markupSink? (facts : Facts) (name : String) (receiver : Option Node) (arguments : List Node) :
    Option TaintSink :=
  (markupMethods.lookup name).bind fun (severity, index) =>
    if documentMethods.contains name && !facts.isGlobalName receiver "document" then none
    else arguments[index]?.map (⟨"xss", name, ·, severity⟩)

def checkMethodCall (name : String) (receiver : Option Node) (arguments : List Node) :
    Engine CallCheck := do
  let facts ← facts
  match name, arguments with
  | "postMessage", _ :: target :: _ =>
    if (← ask (.values target none 0)).contains "*" then
      return .pattern "wildcard_postmessage" "postMessage" .medium
    else return .nothing
  | "setAttribute", key :: value :: _ =>
    let name := (← ask (.values key none 0)).head?.getD ""
    return .ofSink? (attributeSink? (Text.lower name) value)
  | _, _ =>
    if name == "createPolicy" && facts.isGlobalName receiver "trustedTypes" then
      checkPolicy arguments
    else
      match redirectMethods.contains name && facts.isLocation receiver, name, arguments with
      | true, _, address :: _ =>
        return .sink ⟨"open_redirect", "location." ++ name, address, .medium⟩
      | _, "defineProperty", _ :: key :: _ =>
        if facts.isGlobalName receiver "Object" then
          return .sink ⟨"prototype_pollution", "Object.defineProperty", key, .high⟩
        else return .nothing
      | _, "set", _ :: key :: _ =>
        if facts.isGlobalName receiver "Reflect" then
          return .sink ⟨"prototype_pollution", "Reflect.set", key, .high⟩
        else return .nothing
      | _, _, _ => return .ofSink? (markupSink? facts name receiver arguments)

def checkCall (n : Node) : Engine CallCheck := do
  match n.child? .callee with
  | none => return .nothing
  | some callee =>
    let arguments := n.list .arguments
    match ← checkGlobalCall callee arguments, callee.memberName? with
    | some check, _ => return check
    | none, some name => checkMethodCall name (callee.child? .object) arguments
    | none, none => return .nothing

def constructedSink? (facts : Facts) (n : Node) : Option TaintSink :=
  let callee := n.child? .callee
  match (n.list .arguments).head?, (n.list .arguments).getLast? with
  | some first, some last =>
    if facts.isGlobalName callee "Function" then
      some ⟨"code_injection", "new Function", last, .high⟩
    else if facts.isGlobalName callee "RegExp" && first.literalText?.isNone then
      some ⟨"regex_injection", "new RegExp", first, .low⟩
    else none
  | _, _ => none

/-! ## Reporting -/

def sinkEmission? (n : Node) (s : TaintSink) : Engine (Option Emission) := do
  let source ← traceSource (some s.value) 0
  if !source.isUserControlled then return none
  let sanitized := isSanitizedAt (← model) n s.value
  return some {
    isPattern := false
    sort := s.sort
    sink := s.name
    node := n
    taintSource := source.label
    severity := if sanitized then .low else s.severity
    sanitized := sanitized }

def checkNode (n : Node) : Engine CallCheck := do
  let facts ← facts
  match n.kind with
  | .assignmentExpression => return .ofSink? (assignedSink? facts n)
  | .callExpression => checkCall n
  | .newExpression => return .ofSink? (constructedSink? facts n)
  | _ => return .nothing

def emissionAt? (n : Node) : Engine (Option Emission) := do
  match ← checkNode n with
  | .sink s => sinkEmission? n s
  | .pattern sort name severity => return some (.pattern sort name n severity)
  | .nothing => return none

def hasHighSink (es : List Emission) (function : Node) : Bool :=
  match function.head.span with
  | none => false
  | some (first, last) =>
    es.any fun e => e.severity == .high && e.node.head.span.any fun s => first ≤ s.1 && s.1 ≤ last

def raiseSeverity (handlers : List MessageHandler) (es : List Emission) (e : Emission) :
    Emission :=
  if e.sort == "missing_origin_check" || e.sort == "weak_origin_check" then
    match handlers.find? fun h =>
        h.function.line? == e.node.line? && h.function.column? == e.node.column? with
    | some h => if hasHighSink es h.function then { e with severity := .high } else e
    | none => e
  else e

structure TaintReport where
  findings : List Finding
  patterns : List Finding
  handlers : List MessageHandler

def analyseTaint : Engine TaintReport := do
  let facts ← facts
  let handlers ← messageHandlers
  let atNodes ← facts.model.nodes.mapM emissionAt?
  let es := Emission.distinctOnes
    (handlers.filterMap (·.emission?) ++ atNodes.filterMap id)
  let (patterns, sinks) := es.partition (·.isPattern)
  return {
    findings := sinks.map (·.finding facts)
    patterns := patterns.map fun e => (raiseSeverity handlers es e).finding facts
    handlers := handlers }

end ScriptAudit
