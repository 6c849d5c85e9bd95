import ScriptAudit.Fault
import ScriptAudit.Scope.Build
import ScriptAudit.Text.Slice
import ScriptAudit.Tree.Walk

/-!
# The scope model

A program with what the analyses need to move around in it: the way up from each node, the scope
around it, what each identifier refers to, and the member chains and calls.
-/

namespace ScriptAudit

structure Model where
  root : Node
  source : String
  isModule : Bool
  nodes : List Node
  paths : NodeMap (List (Node × Field))
  places : NodeMap Nat
  scopes : Array Scope
  bindings : Array Binding
  bound : NodeMap Nat
  globals : Table String (List Node)
  implicitGlobals : Table String (List Node)
  chains : Table String (List Node)
  calls : List Node
  functions : List Node
  params : List (NodeId × List Nat)
  functionScopes : List (NodeId × Nat)

namespace Model

def ofProgram (root : Node) (source : String) (isModule : Bool) : Except Fault Model :=
  let b := Build.ofProgram root (nodeBound root.walk)
  if b.nameless then .error .namelessIdentifier
  else .ok {
    root, source, isModule
    nodes := b.nodes.reverse
    paths := b.paths
    places := b.places
    scopes := b.scopes
    bindings := b.bindings
    bound := b.bound
    globals := b.globals
    implicitGlobals := b.implicitGlobals
    chains := b.chains
    calls := b.calls.reverse
    functions := b.functions.reverse
    params := b.params
    functionScopes := b.functionScopes }

/-! ## Around a node -/

def path (m : Model) (n : Node) : List (Node × Field) :=
  (m.paths.get? n).getD []

def parent? (m : Model) (n : Node) : Option Node :=
  (m.path n).head?.map (·.1)

def fieldOf? (m : Model) (n : Node) : Option Field :=
  (m.path n).head?.map (·.2)

def ancestors (m : Model) (n : Node) : List Node :=
  (m.path n).map (·.1)

def grandparent? (m : Model) (n : Node) : Option Node :=
  (m.path n)[1]?.map (·.1)

def enclosingFunction? (m : Model) (n : Node) : Option Node :=
  (m.ancestors n).find? (·.kind.isFunction)

def thisFunction? (m : Model) (n : Node) : Option Node :=
  (m.ancestors n).find? (·.kind.bindsThis)

def text (m : Model) (n : Node) : String :=
  match n.head.span with
  | some (first, last) => Text.sliceText m.source first (some (last : Int))
  | none => ""

/-! ## Names -/

def scopeOf (m : Model) (n : Node) : Nat :=
  (m.places.get? n).getD 0

def scopeChain (m : Model) (n : Node) : List Nat :=
  match m.scopes[m.scopeOf n]? with
  | some s => s.chain
  | none => []

def binding? (m : Model) (ident : Node) : Option Binding :=
  (m.bound.get? ident).bind (m.bindings[·]?)

def lookup? (m : Model) (name : String) (at_ : Node) : Option Binding :=
  ((m.scopeChain at_).findSome? fun u => (m.scopes[u]?).bind fun s => s.names.get? name).bind
    (m.bindings[·]?)

def isUnbound (m : Model) (ident : Node) : Bool :=
  ident.kind == .identifier && !m.bound.contains ident &&
    match ident.name with
    | some name => (m.lookup? name ident).isNone
    | none => false

def isUnboundName (m : Model) (ident : Node) (name : String) : Bool :=
  ident.kind == .identifier && ident.name == some name && m.isUnbound ident

def scopeBindings (m : Model) (s : Scope) : List Binding :=
  s.names.values.filterMap (m.bindings[·]?)

/-! ## Functions -/

def paramsOf (m : Model) (function : Node) : List Binding :=
  ((m.params.lookup function.ident).getD []).filterMap (m.bindings[·]?)

def returnsOf (function : Node) : List Node :=
  match function.bodyNode? with
  | none => []
  | some body =>
    if body.kind == .blockStatement then
      body.walkOwn.filterMap fun n =>
        if n.kind == .returnStatement then n.child? .argument else none
    else [body]

def functionName? (m : Model) (function : Node) : Option String :=
  match (function.child? .id).bind Node.name with
  | some name => if name.isEmpty then byPlace else some name
  | none => byPlace
where
  byPlace : Option String :=
    (m.parent? function).bind fun p =>
      match p.kind with
      | .variableDeclarator =>
        (p.child? .id).bind fun i => if i.kind == .identifier then i.name else none
      | .assignmentExpression =>
        if p.holds .right function then (p.child? .left).bind Node.dotted? else none
      | .property | .methodDefinition => p.propertyKey?
      | _ => none

end Model

end ScriptAudit
