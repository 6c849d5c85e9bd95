import ScriptAudit.Request.Param

/-!
# Bodies and headers

The parameters in the body of a request and the headers it is sent with.
-/

namespace ScriptAudit

open Engine

def unknownValue : String := "(dynamic)"

/-! ## Parameters of an object literal -/

def scalarSort : Scalar → String
  | .text _ => "string"
  | .number _ => "number"
  | .boolean _ => "boolean"

def describeParam (name : String) (value : Node) : Param :=
  let p : Param := { name := name, required := true }
  match value.kind with
  | .identifier => { p with source := value.name }
  | .logicalExpression =>
    if value.operator == "||" || value.operator == "??" then
      let left := value.child? .left
      { p with
        required := false
        fallback := (value.child? .right).bind Node.literalValue?
        source := left.bind fun l => if l.kind == .identifier then l.name else none }
    else p
  | .conditionalExpression =>
    { p with required := false, fallback := (value.child? .alternate).bind Node.literalValue? }
  | .literal =>
    let known := match value.head.literal with
      | some (.boolean b) => some (.boolean b)
      | _ => value.literalValue?
    { p with fallback := known, sort := known.map scalarSort }
  | _ => p

def propertyParam? (p : Node) : Engine (Option Param) := do
  if p.kind.isSpreadProperty then
    return (p.child? .argument).bind fun a =>
      if a.kind == .identifier then
        some { name := "..." ++ a.name.getD "", required := false, spread := true }
      else none
  else if p.kind != .property || p.computed then return none
  else
    match p.propertyKey?, p.child? .value with
    | some name, some value =>
      let param := describeParam name value
      if value.kind == .literal then return some param
      else return some { param with values := ← ask (.values value none 0) }
    | _, _ => return none

def objectParams (literal : Node) : Engine (List Param) :=
  return (← (literal.list .properties).mapM propertyParam?).filterMap id

/-! ## Bodies -/

def serialised? (facts : Facts) (n : Node) : Option (Option Node) :=
  let payload := (n.list .arguments).head?
  match n.kind with
  | .callExpression =>
    (n.child? .callee).bind fun callee =>
      if callee.reads "stringify" && facts.isGlobalName (callee.child? .object) "JSON" then
        some payload
      else none
  | .newExpression =>
    if facts.isGlobalName (n.child? .callee) "URLSearchParams" then some payload else none
  | _ => none

def originParams (origin : Option Node) : Engine (List Param) :=
  match origin with
  | some o => if o.kind == .objectExpression then objectParams o else pure []
  | none => pure []

def shapeParams (ref : ShapeRef) : Engine (List Param) := do
  let described ← originParams (← shapeAt ref).origin
  let names := (← shapeAt ref).properties.keys
  let others := names.filter fun name => !described.any (·.name == name)
  return described ++ others.map fun name => { name := name, required := true }

def targetParams (target : Node) : Engine (List Param) := do
  if target.kind == .objectExpression then objectParams target
  else
    match ← ask (.object target 0) with
    | none => return []
    | some ref => shapeParams ref

def payloadParams (payload : Option Node) : Engine (List Param) := do
  match payload with
  | none => return []
  | some target => return (← targetParams target).map fun p => { p with place := some .body }

def serialisedParams? (definition : Option Node) : Engine (Option (List Param)) := do
  match definition.bind (serialised? (← facts)) with
  | some payload => return some (← payloadParams payload)
  | none => return none

def passedProperty (passed : Passed) (property : String) : Engine (Option Node) := do
  match passed.key with
  | none => Ask.objectProperty (some passed.argument) property 0
  | some key =>
    Ask.objectProperty (← Ask.objectProperty (some passed.argument) key 0) property 0

def namedBody? (n : Node) : Engine (Option (List Param)) := do
  match (← model).binding? n with
  | none => return none
  | some b =>
    match ← boundArgument? b with
    | some (index, passed) =>
      underOuter index do
        serialisedParams? (← Ask.takenFrom passed.argument passed.key 0)
    | none => serialisedParams? (if b.isConstant then b.initial else none)

def memberBody? (n : Node) : Engine (Option (List Param)) := do
  match n.memberName?, n.child? .object with
  | some property, some object =>
    match ← boundOf? ((← model).rootBinding? object) with
    | some (index, passed) =>
      underOuter index do serialisedParams? (← passedProperty passed property)
    | none => serialisedParams? (← Ask.objectProperty (some object) property 0)
  | _, _ => return none

def bodyElsewhere? (n : Node) : Engine (Option (List Param)) :=
  match n.kind with
  | .identifier => namedBody? n
  | .memberExpression => memberBody? n
  | _ => pure none

def bodyParams (n : Option Node) : Engine (List Param) := do
  match n with
  | none => return []
  | some n =>
    match serialised? (← facts) n with
    | some payload => payloadParams payload
    | none =>
      match ← bodyElsewhere? n with
      | some params => return params
      | none => payloadParams (some n)

/-! ## Headers -/

def headerSource (facts : Facts) (n : Node) : Option Node :=
  if n.kind == .newExpression && facts.isGlobalName (n.child? .callee) "Headers" then
    (n.list .arguments).head?
  else some n

def headersOf (n : Option Node) : Engine (Table String String) := do
  match n.bind (headerSource (← facts)) with
  | none => return Table.empty
  | some n =>
    match ← ask (.object n 0) with
    | none => return Table.empty
    | some ref =>
      let entries ← visitProperties ref fun name value =>
        return (name, (← ask (.values value none 0)).head?.getD unknownValue)
      return ⟨entries⟩

end ScriptAudit
