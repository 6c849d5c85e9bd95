import ScriptAudit.Resolve.Callers
import ScriptAudit.Resolve.Owner

/-!
# Functions an expression can evaluate to

Functions and classes, in the order in which they are found, each once and not more than there may
be callers.
-/

namespace ScriptAudit.Ask

open Engine

def mergeFunctions (groups : List (List Node)) : Engine (List Node) :=
  return (distinct groups.flatten).take (← limits).maxCallers

def functionsOfAny (nodes : List Node) (depth : Nat) : Engine (List Node) := do
  mergeFunctions (← nodes.mapM fun n => ask (.functions n depth))

def propertyFunctions (object : Option Node) (key : String) (depth : Nat) :
    Engine (List Node) := do
  Ask.functions (← Ask.objectProperty object key (depth + 1)) (depth + 1)

/-! ## Names -/

def passedFunctions (index : Nat) (passed : Passed) (depth : Nat) : Engine (List Node) :=
  underOuter index do
    Ask.functions (← takenFrom passed.argument passed.key (depth + 1)) (depth + 1)

def functionWrite? (w : Node) : Option Node :=
  if w.kind == .assignmentExpression && (w.operator == "=" || w.operator == "||=") then
    w.child? .right
  else none

def declaredFunctions (b : Binding) (depth : Nat) : Engine (List (List Node)) := do
  match b.initial with
  | some value => return [← ask (.functions value (depth + 1))]
  | none =>
    match b.source, b.key with
    | some source, some key => return [← propertyFunctions (some source) key depth]
    | _, _ => return []

def suppliedFunctions (b : Binding) (depth : Nat) : Engine (List (List Node)) := do
  (← argumentPaths b none).mapM fun path =>
    match b.key with
    | some key => propertyFunctions (some path.argument) key depth
    | none => ask (.functions path.argument (depth + 1))

def bindingFunctions (b : Binding) (depth : Nat) : Engine (List Node) := do
  let declared ← declaredFunctions b depth
  let writes := if b.violations.length ≤ (← limits).maxMutations then
      b.violations.filterMap functionWrite?
    else []
  let written ← writes.mapM fun w => ask (.functions w (depth + 1))
  let groups := declared ++ written
  if b.isParam && groups.isEmpty then mergeFunctions (← suppliedFunctions b depth)
  else mergeFunctions groups

def identifierFunctions (n : Node) (depth : Nat) : Engine (List Node) := do
  let facts ← facts
  match facts.model.binding? n with
  | none =>
    match facts.globals with
    | some g => functionsOfAny ((g.lookup (← nameOf n)).map (·.definition)) (depth + 1)
    | none => return []
  | some b =>
    match ← boundArgument? b with
    | some (index, passed) => passedFunctions index passed depth
    | none =>
      match b.sort with
      | .function | .classDecl => return b.initial.toList
      | _ => bindingFunctions b depth

/-! ## Members -/

def computedFunctions (n : Node) (depth : Nat) : Engine (List Node) := do
  let names ← Ask.values (n.child? .property) (depth + 1)
  match ← Ask.object (n.child? .object) (depth + 1) with
  | none => return []
  | some ref =>
    let groups ← names.mapM fun name => do
      Ask.functions (← propertyOf? (some ref) name) (depth + 1)
    mergeFunctions groups

def prototypeFunctions (ctorExpr : Option Node) (key : String) (depth : Nat) :
    Engine (List Node) := do
  let m ← model
  let groups ← (← Ask.functions ctorExpr (depth + 1)).mapM fun ctor => do
    let o ← Owner.ofInstances ctor
    return (o.property m key false).filter (·.kind.isFunction)
  mergeFunctions groups

def instanceSources (m : Model) (object : Node) : List Node :=
  if object.kind == .newExpression || object.kind.isClass then [object]
  else
    match m.rootBinding? object with
    | none => []
    | some b =>
      match b.sort, b.initial with
      | .classDecl, some cls => [cls]
      | _, initial =>
        let written := b.violations.filterMap fun w =>
          if w.kind == .assignmentExpression then w.child? .right else none
        (initial.toList ++ written).filter fun c =>
          c.kind == .newExpression || c.kind == .classExpression

def staticMembers (cls : Node) (key : String) : List Node :=
  Owner.valuesUnder ((classMembers cls).filter (·.head.isStatic)) key

def instanceFunctions (key : String) (depth : Nat) (target : Node) :
    Engine (List (List Node)) := do
  let m ← model
  if target.kind == .newExpression then
    (← Ask.functions (target.child? .callee) (depth + 1)).mapM fun ctor => do
      let o ← Owner.ofInstances ctor
      return (o.property m key true).filter fun v => v.kind.isFunction || v.kind.isClass
  else return [staticMembers target key]

def objectFunctions (object : Node) (key : String) (depth : Nat) : Engine (List Node) := do
  let m ← model
  let inShape ← propertyFunctions (some object) key depth
  let assigned ← (m.assignedMembers object key).mapM fun v => ask (.functions v (depth + 1))
  let ofInstances ← (instanceSources m object).mapM (instanceFunctions key depth)
  mergeFunctions (inShape :: assigned ++ ofInstances.flatten)

def memberFunctions (n : Node) (depth : Nat) : Engine (List Node) := do
  let facts ← facts
  match n.memberName?, n.child? .object with
  | none, _ => computedFunctions n depth
  | _, none => return []
  | some name, some object =>
    match facts.globals.bind fun g => (g.globalMember? n).map g.lookup with
    | some entries => functionsOfAny (entries.map (·.definition)) (depth + 1)
    | none =>
      if object.kind == .thisExpression then
        match facts.model.thisFunction? object with
        | none => return []
        | some f =>
          let o ← Owner.ofFunction f
          functionsOfAny (o.property facts.model name true) (depth + 1)
      else if object.reads "prototype" then
        prototypeFunctions (object.child? .object) name depth
      else objectFunctions object name depth

/-! ## Calls -/

def callFunctions (call : Node) (depth : Nat) : Engine (List Node) := do
  match call.child? .callee with
  | none => return []
  | some callee =>
    if callee.reads "bind" then Ask.functions (callee.child? .object) (depth + 1)
    else
      mergeFunctions (← foldReturns call depth [] fun groups returned =>
        return groups ++ [← ask (.functions returned (depth + 1))])

def functionsRule (n : Node) (depth : Nat) : Option (Engine (List Node)) :=
  match n.kind with
  | .functionExpression | .arrowFunctionExpression | .functionDeclaration | .classExpression
  | .classDeclaration => some (pure [n])
  | .identifier => some (identifierFunctions n depth)
  | .memberExpression => some (memberFunctions n depth)
  | .callExpression => some (callFunctions n depth)
  | .conditionalExpression | .logicalExpression =>
    some (functionsOfAny (n.branches.filter (· != n)) (depth + 1))
  | .assignmentExpression => some (Ask.functions (n.child? .right) (depth + 1))
  | .sequenceExpression => some (Ask.functions (n.last? .expressions) (depth + 1))
  | _ => none

end ScriptAudit.Ask
