import ScriptAudit.Resolve.Assigned
import ScriptAudit.Resolve.Question

/-!
# Owners of `this`

Which functions share a `this`: the methods of an object literal or of a class, and a constructor
with what is put on its prototype. The members of such an owner are found where these define them.
-/

namespace ScriptAudit

open Engine

def classMembers (cls : Node) : List Node :=
  ((cls.child? .body).map (·.list .body)).getD []

namespace Model

def prototypeNodes (m : Model) (chain : Option String) (root : Option Binding) : List Node :=
  match chain with
  | none => []
  | some chain =>
    (m.chains.getD (chain ++ ".prototype") []).filter fun n =>
      sameBinding (m.rootBinding? n.chainRoot) root

def memberAssignment? (m : Model) (n : Node) : Option (Node × Node) :=
  (m.memberOf? n).bind fun member => (m.assignmentTo? member).map (member, ·)

end Model

namespace Owner

def withLiteralFunctions (o : Owner) : Owner :=
  let values := o.literals.flatMap fun l => (l.list .properties).filterMap (·.child? .value)
  { o with functions := addAllNew o.functions (values.filter (·.kind.isFunction)) }

def withPrototypeNode (m : Model) (o : Owner) (proto : Node) : Owner :=
  match m.assignmentTo? proto with
  | some assign =>
    match assign.child? .right with
    | some right =>
      if right.kind == .objectExpression then { o with literals := addNew o.literals right }
      else o
    | none => o
  | none =>
    match (m.memberAssignment? proto).bind fun (_, assign) => assign.child? .right with
    | some right =>
      if right.kind.isFunction then { o with functions := addNew o.functions right } else o
    | none => o

def valuesUnder (items : List Node) (key : String) : List Node :=
  items.filterMap fun i => if i.propertyKey? == some key then i.child? .value else none

def thisAssignments (m : Model) (o : Owner) (key : String) : List Node :=
  (Node.thisNodes o.functions).filterMap fun this =>
    (m.memberAssignment? this).bind fun (member, assign) =>
      if member.reads key && assign.operator == "=" then assign.child? .right else none

def property (m : Model) (o : Owner) (key : String) (assignments : Bool) : List Node :=
  let inLiterals := o.literals.flatMap fun l =>
    valuesUnder ((l.list .properties).filter (·.kind == .property)) key
  let inClass := (o.cls.map fun c =>
    valuesUnder ((classMembers c).filter fun i => !i.head.isStatic) key).getD []
  let onPrototype := (m.prototypeNodes o.chain o.root).filterMap fun proto =>
    (m.memberAssignment? proto).bind fun (member, assign) =>
      if member.reads key then assign.child? .right else none
  inLiterals ++ inClass ++ onPrototype ++ (if assignments then o.thisAssignments m key else [])

def ofClass (cls : Node) : Owner where
  cls := some cls
  ctor := Ask.classConstructor? cls
  functions := (classMembers cls).filterMap fun i =>
    if i.head.isStatic then none else i.child? .value

def ofMethod (m : Model) (method : Node) : Owner :=
  let members := ((m.parent? method).map (·.list .body)).getD []
  { cls := m.grandparent? method
    functions := members.filterMap fun i =>
      if i.head.isStatic == method.head.isStatic then i.child? .value else none
    ctor := ((members.filter (·.sort == "constructor")).getLast?).bind (·.child? .value) }

def constructorName? (m : Model) (f : Node) : Option Node :=
  let declared := if f.kind == .functionDeclaration then f.child? .id else none
  declared.orElse fun _ =>
    (m.parent? f).bind fun p =>
      match p.kind with
      | .variableDeclarator =>
        (p.child? .id).bind fun i => if i.kind == .identifier then some i else none
      | .assignmentExpression =>
        if p.holds .right f then
          (p.child? .left).bind fun l => if l.dotted?.isSome then some l else none
        else none
      | _ => none

def constructorFor (o : Owner) (expr : Node) : Engine (Option Node) :=
  match o.ctor with
  | some c => pure (some c)
  | none => return (← Ask.functions (some expr) 0).find? (·.kind.isFunction)

def attachPrototype (o : Owner) (ctorExpr : Option Node) : Engine Owner := do
  let m ← model
  match ctorExpr.bind fun e => e.dotted?.map (e, ·) with
  | none => return o
  | some (expr, chain) =>
    let root := m.rootBinding? expr.chainRoot
    let ctor ← constructorFor o expr
    let functions := match ctor with
      | some c => addNew o.functions c
      | none => o.functions
    let o := { o with chain := some chain, root := root, ctor := ctor, functions := functions }
    return (m.prototypeNodes o.chain o.root).foldl (withPrototypeNode m) o

def ofLiteralMethod (m : Model) (literal : Node) : Engine Owner := do
  let named := (m.parent? literal).bind fun assign =>
    if assign.kind == .assignmentExpression then
      (assign.child? .left).bind fun l => if l.reads "prototype" then some l else none
    else none
  let o ← attachPrototype { literals := [literal] } (named.bind (·.child? .object))
  return o.withLiteralFunctions

def ofPrototypeMethod (f proto : Node) : Engine Owner := do
  let o := (← attachPrototype {} (proto.child? .object)).withLiteralFunctions
  return { o with functions := addNew o.functions f }

def ofConstructor (m : Model) (f : Node) : Engine Owner := do
  let o := (← attachPrototype { ctor := some f } (constructorName? m f)).withLiteralFunctions
  return if o.functions.contains f then o else { o with functions := f :: o.functions }

def literalOf? (m : Model) (f : Node) : Option Node :=
  (m.parent? f).bind fun p =>
    if p.kind == .property && m.fieldOf? f == some .value then
      (m.parent? p).bind fun l => if l.kind == .objectExpression then some l else none
    else none

def prototypeOf? (m : Model) (f : Node) : Option Node :=
  (m.parent? f).bind fun p =>
    if p.kind == .assignmentExpression && p.holds .right f then
      (p.child? .left).bind fun left =>
        if left.kind == .memberExpression then
          (left.child? .object).bind fun o => if o.reads "prototype" then some o else none
        else none
    else none

def build (f : Node) : Engine Owner := do
  let m ← model
  match (m.parent? f).bind fun p => if p.kind == .methodDefinition then some p else none with
  | some method => return ofMethod m method
  | none =>
    match literalOf? m f with
    | some literal => ofLiteralMethod m literal
    | none =>
      match prototypeOf? m f with
      | some proto => ofPrototypeMethod f proto
      | none => ofConstructor m f

def ofFunction (f : Node) : Engine Owner := do
  match (← session).owners.get? f.ident with
  | some o => return o
  | none =>
    let o ← build f
    update fun s => { s with owners := s.owners.insert f.ident o }
    return o

def ofInstances (f : Node) : Engine Owner :=
  if f.kind.isClass then pure (ofClass f) else ofFunction f

end Owner

end ScriptAudit
