import ScriptAudit.Resolve.Callers
import ScriptAudit.Resolve.Owner
import ScriptAudit.Text.Case
import ScriptAudit.Text.Percent

/-!
# Texts an expression can evaluate to

One rule for each type of expression, and one for reading a property. The rules take in too much
rather than too little: branches are united, and concatenations join candidates position by
position.
-/

namespace ScriptAudit

open Engine

/-! ## Methods of strings -/

def stringTransform? : String → Option (String → String)
  | "toLowerCase" | "toLocaleLowerCase" => some Text.lower
  | "toUpperCase" | "toLocaleUpperCase" => some Text.upper
  | "trim" => some Text.trim
  | "trimStart" | "trimLeft" => some Text.trimStart
  | "trimEnd" | "trimRight" => some Text.trimEnd
  | "toString" | "valueOf" | "normalize" => some id
  | _ => none

def encoderSafe? : String → Option (List Char)
  | "encodeURIComponent" => some Text.safeInComponent
  | "encodeURI" => some Text.safeInUrl
  | _ => none

def cutOut (method : String) (bounds : List Int) (s : String) : String :=
  match bounds with
  | [] => s
  | start :: rest =>
    let stop := rest.head?
    match method with
    | "substr" => Text.sliceText s start (stop.map (start + ·))
    | "substring" => Text.sliceText s (max 0 start) stop
    | _ => Text.sliceText s start stop

def wholeLiteral? (n : Node) : Option Int :=
  match n.literalValue? with
  | some (.number (.whole i)) => some i
  | _ => none

def plainTemplate? (n : Node) : Option String :=
  if n.kind == .templateLiteral && (n.list .expressions).isEmpty then
    some (String.join ((n.list .quasis).map Node.cookedText))
  else none

namespace Engine

def zip (columns : List (List String)) : Engine (List String) := do
  match zipColumns (← limits).maxValues columns with
  | .ok values => return values
  | .error e => fail e

def union (groups : List (List String)) : Engine (List String) :=
  return unite (← limits).maxValues groups

def visitProperties {α : Type} (ref : ShapeRef) (f : String → Node → Engine α) :
    Engine (List α) := do
  let properties := (← shapeAt ref).properties
  properties.entries.mapM fun (key, value) => do
    let a ← f key value
    checkSize ref properties.size
    return a

end Engine

namespace Ask

/-! ## Several expressions -/

def columns (depth : Nat) : List Node → Engine (Option (List (List String)))
  | [] => pure (some [])
  | n :: rest => do
    let values ← ask (.values n none depth)
    if values.isEmpty then return none
    return (← columns depth rest).map (values :: ·)

def concatenated (parts : List Node) (depth : Nat) : Engine (List String) := do
  match ← columns depth parts with
  | some cs => zip cs
  | none => return []

def anyOf (nodes : List Node) (depth : Nat) : Engine (List String) := do
  union (← nodes.mapM fun n => ask (.values n none depth))

def templateColumns (depth : Nat) : List Node → List Node → Engine (Option (List (List String)))
  | [], _ => pure (some [])
  | q :: qs, [] => return (← templateColumns depth qs []).map ([q.cookedText] :: ·)
  | q :: qs, e :: es => do
    let values ← ask (.values e none depth)
    if values.isEmpty then return none
    return (← templateColumns depth qs es).map ([q.cookedText] :: values :: ·)

def templateValues (n : Node) (depth : Nat) : Engine (List String) := do
  match ← templateColumns (depth + 1) (n.list .quasis) (n.list .expressions) with
  | some cs => zip cs
  | none => return [n.placeholder]

def branchValues (n : Node) (depth : Nat) : Engine (List String) :=
  match n.branches with
  | [b] => if b == n then pure [] else anyOf [b] (depth + 1)
  | bs => anyOf bs (depth + 1)

/-! ## Names -/

def globalValues (name : String) (depth : Nat) : Engine (List String) := do
  match ← globals with
  | some g => anyOf ((g.lookup name).map (·.definition)) (depth + 1)
  | none => return []

def passedValues (b : Binding) (index : Nat) (passed : Passed) (depth : Nat) :
    Engine (List String) := do
  let values ← underOuter index (ask (.values passed.argument passed.key (depth + 1)))
  if values.isEmpty then Ask.values b.fallback (depth + 1) else return values

def declaredValues (b : Binding) (depth : Nat) : Engine (List String) := do
  if !b.isConstant then return []
  let values ← Ask.values b.initial (depth + 1)
  if !values.isEmpty then return values
  match b.key with
  | some key => Ask.property b.source key (depth + 1)
  | none => return []

def writtenValue? (w : Node) : Option Node :=
  match w.kind with
  | .assignmentExpression => if w.operator == "=" then w.child? .right else none
  | .variableDeclarator => w.child? .initial
  | _ => none

def rewrittenValues (b : Binding) (depth : Nat) : Engine (List String) := do
  if b.violations.isEmpty || (← limits).maxMutations < b.violations.length then return []
  anyOf (b.initial.toList ++ b.violations.filterMap writtenValue?) (depth + 1)

def bindingValues (b : Binding) (depth : Nat) : Engine (List String) := do
  match ← boundArgument? b with
  | some (index, passed) => passedValues b index passed depth
  | none =>
    match b.sort with
    | .function | .classDecl | .imported => return []
    | _ =>
      let values ← declaredValues b depth
      if !values.isEmpty then return values
      if b.isParam then
        let supplied ← paramValues b none (depth + 1)
        match b.fallback with
        | some d => union [supplied, ← ask (.values d none (depth + 1))]
        | none => return supplied
      else rewrittenValues b depth

def identifierValues (n : Node) (depth : Nat) : Engine (List String) := do
  let m ← model
  if m.isUnboundName n "undefined" then return []
  match m.binding? n with
  | some b => bindingValues b depth
  | none => globalValues (← nameOf n) depth

/-! ## Members -/

def computedValues (n : Node) (depth : Nat) : Engine (List String) := do
  let object := n.child? .object
  let keys ← Ask.values (n.child? .property) (depth + 1)
  if !keys.isEmpty then
    union (← keys.mapM fun key => Ask.property object key (depth + 1))
  else
    let shape ← Ask.object object (depth + 1)
    match shape, ← hasProperties shape with
    | some ref, true =>
      union (← visitProperties ref fun _ value => ask (.values value none (depth + 1)))
    | _, _ =>
      match ← Ask.array object (depth + 1) with
      | some elements => anyOf elements (depth + 1)
      | none => return []

def globalMemberValues (n : Node) (depth : Nat) : Engine (List String) := do
  match (← globals).bind (·.globalMember? n) with
  | some global => globalValues global depth
  | none => return []

def memberValues (n : Node) (depth : Nat) : Engine (List String) := do
  match n.memberName? with
  | none => computedValues n depth
  | some name =>
    let ofGlobal ← globalMemberValues n depth
    if !ofGlobal.isEmpty then return ofGlobal
    if name == "length" then return []
    Ask.property (n.child? .object) name (depth + 1)

def thisPropertyValues (this : Node) (property : String) (depth : Nat) :
    Engine (List String) := do
  let m ← model
  match m.thisFunction? this with
  | some f =>
    let o ← Owner.ofFunction f
    anyOf (o.property m property true) (depth + 1)
  | none =>
    if (← facts).isGlobalObject (some this) then globalValues property depth
    else return []

def instancePropertyValues (new : Node) (property : String) (depth : Nat) :
    Engine (List String) := do
  let m ← model
  (← callables (new.child? .callee) (depth + 1)).foldlM (fun found ctor => do
    if ← isBound ctor then return found
    let o ← Owner.ofFunction ctor
    withCall ctor new 0 ((o.property m property true).foldlM (fun found value => do
      union [found, ← ask (.values value none (depth + 1))]) found)) []

def passedPropertyValues (index : Nat) (passed : Passed) (property : String) (depth : Nat) :
    Engine (List String) :=
  underOuter index do
    match passed.key with
    | none => ask (.values passed.argument (some property) (depth + 1))
    | some key =>
      Ask.property (← Ask.objectProperty (some passed.argument) key (depth + 1)) property
        (depth + 1)

def elementAt? (object : Node) (property : String) (depth : Nat) : Engine (Option Node) := do
  if !Text.isDigits property then return none
  match ← Ask.array (some object) (depth + 1) with
  | none => return none
  | some elements =>
    match Number.numeral property with
    | .ok i => return elements[i.toNat]?
    | .error cause => fail (.position property cause)

def definedPropertyValues (object : Node) (property : String) (depth : Nat) :
    Engine (List String) := do
  let values ← Ask.values (← Ask.objectProperty (some object) property (depth + 1)) (depth + 1)
  if !values.isEmpty then return values
  anyOf ((← model).assignedMembers object property) (depth + 1)

def originPropertyValues (object : Node) (b : Option Binding) (property : String) (depth : Nat) :
    Engine (List String) := do
  match b with
  | some b =>
    if b.isParam then paramValues b (some property) (depth + 1)
    else
      match b.initial with
      | some value =>
        if b.isConstant && value.kind == .newExpression then
          instancePropertyValues value property depth
        else return []
      | none => return []
  | none =>
    if object.kind == .newExpression then instancePropertyValues object property depth
    else return []

def propertyValues (object : Node) (property : String) (depth : Nat) : Engine (List String) := do
  if object.kind == .thisExpression then thisPropertyValues object property depth
  else
    let b := (← model).rootBinding? object
    match ← boundOf? b with
    | some (index, passed) => passedPropertyValues index passed property depth
    | none =>
      match ← elementAt? object property depth with
      | some element => ask (.values element none (depth + 1))
      | none =>
        let values ← definedPropertyValues object property depth
        if !values.isEmpty then return values
        originPropertyValues object b property depth

/-! ## Calls -/

def returnedValues (call : Node) (depth : Nat) : Engine (List String) :=
  foldReturns call depth [] fun found returned => do
    union [found, ← ask (.values returned none (depth + 1))]

def globalCallValues (name : String) (arguments : List Node) (depth : Nat) :
    Engine (List String) := do
  match arguments with
  | [] => return []
  | first :: _ =>
    if name == "String" then ask (.values first none (depth + 1))
    else
      match encoderSafe? name with
      | some safe =>
        return (← ask (.values first none (depth + 1))).map (Text.percentEncode safe)
      | none => return []

def joinedValues (receiver : Option Node) (arguments : List Node) (depth : Nat) :
    Engine (List String) := do
  match ← Ask.array receiver (depth + 1) with
  | none => return []
  | some elements =>
    let separator := match arguments with
      | [] => some ","
      | a :: _ => a.literalText?
    match separator with
    | none => return []
    | some separator =>
      match ← columns (depth + 1) elements with
      | none => return []
      | some [] => return [""]
      | some cs => zip (cs.intersperse [separator])

def replacedValues (receiver : Option Node) (pattern replacement : Node) (everywhere : Bool)
    (depth : Nat) : Engine (List String) := do
  let base ← Ask.values receiver (depth + 1)
  match pattern.literalText?, replacement.literalText? with
  | some p, some new =>
    return base.map fun s => Text.replace s p new (if everywhere then none else some 1)
  | _, _ => return base

def methodCallValues (method : String) (receiver : Option Node) (arguments : List Node)
    (depth : Nat) : Engine (List String) := do
  match stringTransform? method with
  | some transform => return (← Ask.values receiver (depth + 1)).map transform
  | none =>
    match method, arguments with
    | "replace", pattern :: replacement :: _ =>
      replacedValues receiver pattern replacement false depth
    | "replaceAll", pattern :: replacement :: _ =>
      replacedValues receiver pattern replacement true depth
    | "slice", _ :: _ | "substring", _ :: _ | "substr", _ :: _ =>
      match (arguments.take 2).mapM wholeLiteral? with
      | some bounds => return (← Ask.values receiver (depth + 1)).map (cutOut method bounds)
      | none => return []
    | "concat", _ =>
      if receiver.any (·.kind == .arrayExpression) then return []
      else concatenated (receiver.toList ++ arguments) (depth + 1)
    | "join", _ => joinedValues receiver arguments depth
    | _, _ => return []

def callValues (call : Node) (depth : Nat) : Engine (List String) := do
  let values ← returnedValues call depth
  if !values.isEmpty then return values
  match call.child? .callee with
  | none => return []
  | some callee =>
    let arguments := call.list .arguments
    if (← model).isUnbound callee then
      globalCallValues (callee.name.getD "") arguments depth
    else
      match callee.memberName? with
      | some method => methodCallValues method (callee.child? .object) arguments depth
      | none => return []

/-! ## All expressions -/

def negatedValues (n : Node) : List String :=
  match (n.child? .argument).bind Node.literalValue? with
  | some (.number x) => if n.operator == "-" then ["-" ++ x.text] else []
  | _ => []

def valuesRule (n : Node) (depth : Nat) : Option (Engine (List String)) :=
  match n.kind with
  | .templateLiteral => some (templateValues n depth)
  | .binaryExpression =>
    some (if n.operator == "+" then concatenated n.concatTerms depth else pure [])
  | .conditionalExpression | .logicalExpression => some (branchValues n depth)
  | .callExpression => some (callValues n depth)
  | .identifier => some (identifierValues n depth)
  | .memberExpression => some (memberValues n depth)
  | .assignmentExpression =>
    some (if n.operator == "=" then Ask.values (n.child? .right) (depth + 1) else pure [])
  | .sequenceExpression => some (Ask.values (n.last? .expressions) (depth + 1))
  | .unaryExpression => some (pure (negatedValues n))
  | _ => none

end Ask

end ScriptAudit
