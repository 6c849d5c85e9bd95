import ScriptAudit.Resolve.Aliases

/-!
# Object shapes

The properties that an object is known to have. A shape is shared by all that hold the same object,
so what is assigned to a variable later shows wherever its literal is reached.
-/

namespace ScriptAudit.Ask

open Engine

def gatherShapes (nodes : List Node) (depth : Nat) (found : Option ShapeRef) :
    Engine (Option ShapeRef) :=
  nodes.foldlM (fun found n => do gather found (← ask (.object n depth))) found

/-! ## Literals -/

def addProperty (shape : Shape) (p : Node) (depth : Nat) : Engine Shape := do
  if p.kind.isSpreadProperty then
    match ← Ask.object (p.child? .argument) (depth + 1) with
    | some ref => return shape.merge (← shapeAt ref) true
    | none => return shape
  else
    match p.child? .value with
    | none => return shape
    | some value =>
      match p.propertyKey? with
      | some key => return { shape with properties := shape.properties.insert key value }
      | none =>
        if p.computed then
          let names ← Ask.values (p.child? .key) (depth + 1)
          return { shape with
            properties := names.foldl (fun t name => t.insert name value) shape.properties }
        else return shape

def literalShape (n : Node) (depth : Nat) : Engine (Option ShapeRef) := do
  let shape ← (n.list .properties).foldlM (fun shape p => addProperty shape p depth)
    { origin := some n }
  return some (← newShape shape)

/-! ## Names -/

def globalShape (name : String) (depth : Nat) : Engine (Option ShapeRef) := do
  match ← globals with
  | some g => gatherShapes ((g.lookup name).map (·.definition)) (depth + 1) none
  | none => return none

def passedShape (index : Nat) (passed : Passed) (depth : Nat) : Engine (Option ShapeRef) :=
  underOuter index do
    let shape ← ask (.object passed.argument (depth + 1))
    match passed.key with
    | none => return shape
    | some key => Ask.object (← propertyOf? shape key) (depth + 1)

def suppliedShape (b : Binding) (depth : Nat) : Engine (Option ShapeRef) := do
  let found ← (← argumentPaths b none).foldlM (fun found path => do
    let argument ← takenFrom path.argument b.key (depth + 1)
    gather found (← Ask.object argument (depth + 1))) none
  gatherShapes b.fallback.toList (depth + 1) found

def declaredShape (b : Binding) (depth : Nat) : Engine (Option ShapeRef) := do
  match if b.sort.isVariable then b.initial else none with
  | some value => ask (.object value (depth + 1))
  | none =>
    match b.source, b.key with
    | some source, some key =>
      Ask.object (← Ask.objectProperty (some source) key (depth + 1)) (depth + 1)
    | _, _ => if b.isParam then suppliedShape b depth else return none

def addAssigned (b : Binding) (found : Option ShapeRef) : Engine (Option ShapeRef) := do
  let additions := (← model).memberAssignments b
  if additions.isEmpty then return found
  let ref ← shapeOrNew found { origin := b.initial }
  changeShape ref fun shape => { shape with
    properties := additions.entries.foldl (fun t e => t.insertNew e.1 e.2) shape.properties }
  return some ref

def assignedValue? (w : Node) : Option Node :=
  if w.kind == .assignmentExpression && w.operator == "=" then w.child? .right else none

def identifierShape (n : Node) (depth : Nat) : Engine (Option ShapeRef) := do
  match (← model).binding? n with
  | none => globalShape (← nameOf n) depth
  | some b =>
    match ← boundArgument? b with
    | some (index, passed) => passedShape index passed depth
    | none =>
      let declared ← declaredShape b depth
      let written ← gatherShapes (b.violations.filterMap assignedValue?) (depth + 1) declared
      addAssigned b written

/-! ## Members -/

def firstShape (depth : Nat) : List Node → Engine (Option ShapeRef)
  | [] => pure none
  | n :: rest => do
    match ← ask (.object n depth) with
    | some ref => return some ref
    | none => firstShape depth rest

def thisMemberShape (this : Node) (name : String) (depth : Nat) : Engine (Option ShapeRef) := do
  let m ← model
  match m.thisFunction? this with
  | none => return none
  | some f =>
    let o ← Owner.ofFunction f
    gatherShapes (o.property m name true) (depth + 1) none

def memberShape (n : Node) (depth : Nat) : Engine (Option ShapeRef) := do
  let facts ← facts
  match n.memberName?, n.child? .object with
  | some name, some object =>
    match facts.globals.bind (·.globalMember? n) with
    | some global => globalShape global depth
    | none =>
      if object.kind == .thisExpression then thisMemberShape object name depth
      else
        match ← Ask.objectProperty (some object) name (depth + 1) with
        | some value => ask (.object value (depth + 1))
        | none => firstShape (depth + 1) (facts.model.assignedMembers object name)
  | _, _ => return none

/-! ## Calls and branches -/

def mergedShape (call : Node) (depth : Nat) : Engine (Option ShapeRef) := do
  let copies := ((call.child? .callee).bind Node.memberName?).any mergeMethods.contains
  let arguments := call.list .arguments
  if !copies || arguments.isEmpty then return none
  let (shape, found) ← (mergeArguments arguments).foldlM (fun (shape, found) a => do
    match ← ask (.object a (depth + 1)) with
    | some ref => return (Shape.merge shape (← shapeAt ref) true, true)
    | none => return (shape, found)) (({ origin := some call } : Shape), false)
  if found then return some (← newShape shape) else return none

def callShape (call : Node) (depth : Nat) : Engine (Option ShapeRef) := do
  match ← mergedShape call depth with
  | some ref => return some ref
  | none =>
    foldReturns call depth none fun found returned => do
      gather found (← ask (.object returned (depth + 1)))

def thisShape (n : Node) (depth : Nat) : Engine (Option ShapeRef) := do
  match (← model).thisFunction? n with
  | none => return none
  | some f =>
    match (← Owner.ofFunction f).literals with
    | [] => return none
    | first :: rest =>
      let shape ← (first :: rest).foldlM (fun (shape : Shape) l => do
        match ← ask (.object l (depth + 1)) with
        | some ref => return shape.merge (← shapeAt ref) false
        | none => return shape) { origin := some first }
      return some (← newShape shape)

def objectRule (n : Node) (depth : Nat) : Option (Engine (Option ShapeRef)) :=
  match n.kind with
  | .objectExpression => some (literalShape n depth)
  | .identifier => some (identifierShape n depth)
  | .memberExpression => some (memberShape n depth)
  | .callExpression => some (callShape n depth)
  | .conditionalExpression | .logicalExpression =>
    some (gatherShapes (n.branches.filter (· != n)) (depth + 1) none)
  | .assignmentExpression => some (Ask.object (n.child? .right) (depth + 1))
  | .sequenceExpression => some (Ask.object (n.last? .expressions) (depth + 1))
  | .thisExpression => some (thisShape n depth)
  | _ => none

end ScriptAudit.Ask
