import ScriptAudit.Scope.Binding
import ScriptAudit.Scope.Pattern
import ScriptAudit.Tree.NodeMap

/-!
# Building the scope model

One pass over the tree opens scopes, enters declarations and notes which identifiers are read or
written. Names are resolved only after the pass, so a use may precede its declaration.
-/

namespace ScriptAudit

/-- What the pass has gathered so far. Lists are newest first. -/
structure Build where
  nodes : List Node := []
  paths : NodeMap (List (Node × Field))
  places : NodeMap Nat
  scopes : Array Scope := #[]
  bindings : Array Binding := #[]
  bound : NodeMap Nat
  chains : Table String (List Node) := Table.empty
  calls : List Node := []
  functions : List Node := []
  params : List (NodeId × List Nat) := []
  functionScopes : List (NodeId × Nat) := []
  declared : NodeMap Unit
  written : NodeMap Unit
  sharedBodies : NodeMap Unit
  reads : List (Node × Nat) := []
  writes : List (Node × Node × Nat) := []
  globals : Table String (List Node) := Table.empty
  implicitGlobals : Table String (List Node) := Table.empty
  nameless : Bool := false

namespace Build

def start (size : Nat) : Build where
  paths := .empty size
  places := .empty size
  bound := .empty size
  declared := .empty size
  written := .empty size
  sharedBodies := .empty size

/-! ## Scopes -/

def scopeChain (b : Build) (uid : Nat) : List Nat :=
  match b.scopes[uid]? with
  | some s => s.chain
  | none => []

def openScope (b : Build) (sort : ScopeSort) (node : Node) (outer : List Nat) : Nat × Build :=
  let uid := b.scopes.size
  (uid, { b with scopes := b.scopes.push { uid, sort, node, outer } })

def varScope (b : Build) (uid : Nat) : Nat :=
  ((b.scopeChain uid).find? fun u =>
    match b.scopes[u]? with
    | some s => s.sort == .function || s.sort == .program
    | none => false).getD uid

def lookup (b : Build) (uid : Nat) (name : String) : Option Nat :=
  (b.scopeChain uid).findSome? fun u => (b.scopes[u]?).bind fun s => s.names.get? name

/-! ## Declarations -/

structure Declaration where
  sort : BindingSort
  declarator : Option Node := none
  initial : Option Node := none
  function : Option Node := none
  paramIndex : Option Nat := none
  place : PatternPlace := {}

def Declaration.binding (d : Declaration) (uid scope : Nat) (ident : Node) (name : String) :
    Binding where
  uid := uid
  name := name
  sort := d.sort
  scope := scope
  identifier := ident
  declarator := d.declarator
  initial := if d.place.depth == 0 then d.initial else none
  function := d.function
  paramIndex := d.paramIndex
  key := d.place.key
  fallback := d.place.fallback
  source := if d.place.depth == 0 then none else d.initial
  rest := d.place.rest

def addViolation (b : Build) (uid : Nat) (writer : Node) : Build :=
  { b with bindings := b.bindings.modify uid fun x =>
      { x with violations := x.violations ++ [writer] } }

def addReference (b : Build) (uid : Nat) (ident : Node) : Build :=
  { b with bindings := b.bindings.modify uid fun x =>
      { x with references := x.references ++ [ident] } }

def declare (b : Build) (scope : Nat) (ident : Node) (d : Declaration) : Option Nat × Build :=
  let b := { b with declared := b.declared.insert ident () }
  match ident.name with
  | none => (none, { b with nameless := true })
  | some name =>
    let known := (b.scopes[scope]?).bind fun s => s.names.get? name
    match known, d.sort == .param with
    | some uid, false =>
      let rewritten := d.place.depth == 0 && d.initial.isSome && d.sort != .function
      let b := if rewritten then b.addViolation uid (d.declarator.getD ident) else b
      (some uid, { b with bound := b.bound.insert ident uid })
    | _, _ =>
      let uid := b.bindings.size
      (some uid, { b with
        bindings := b.bindings.push (d.binding uid scope ident name)
        scopes := b.scopes.modify scope fun s => { s with names := s.names.insert name uid }
        bound := b.bound.insert ident uid })

def declarePattern (b : Build) (scope : Nat) (pattern : Node) (d : Declaration) :
    List Nat × Build :=
  (pattern.targets {}).foldl (fun (uids, b) t =>
    let (uid, b) := b.declare scope t.identifier { d with place := t.place }
    (uid.toList ++ uids, b)) ([], b)

def declareParams (b : Build) (scope : Nat) (function : Node) : List Nat × Build :=
  ((function.list .params).zipIdx).foldl (fun (uids, b) (pattern, i) =>
    let (more, b) := b.declarePattern scope pattern
      { sort := .param, declarator := function, function := function, paramIndex := i }
    (uids ++ more, b)) ([], b)

/-! ## Entering a node -/

def isRead (b : Build) (ident : Node) (path : List (Node × Field)) : Bool :=
  !b.declared.contains ident && !b.written.contains ident &&
    match path with
    | [] => true
    | (p, f) :: _ =>
      match p.kind with
      | .memberExpression => f != .property || p.computed
      | .property | .methodDefinition => f != .key || p.computed
      | .labeledStatement | .breakStatement | .continueStatement | .metaProperty => false
      | .functionDeclaration | .functionExpression | .arrowFunctionExpression
      | .classExpression | .classDeclaration => f != .id
      | .importSpecifier => f != .imported
      | .exportSpecifier => f != .exported
      | _ => true

def noteWrite (b : Build) (scope : Nat) (writer target : Node) : Build :=
  { b with written := b.written.insert target (), writes := (target, writer, scope) :: b.writes }

def noteLeft (b : Build) (n : Node) (scope : Nat) : Build :=
  match n.child? .left with
  | some left => left.writtenNames.foldl (·.noteWrite scope n ·) b
  | none => b

def shareBody (b : Build) (body : Node) : Build :=
  { b with sharedBodies := b.sharedBodies.insert body () }

def declareFunctionName (b : Build) (n : Node) (kind : Kind) (scope : Nat) : Build :=
  match n.child? .id with
  | some ident =>
    if n.kind == kind then
      (b.declare scope ident { sort := .function, declarator := n, initial := n }).2
    else b
  | none => b

def noteFunction (b : Build) (n : Node) : Build :=
  { b with functions := n :: b.functions }

def noteFunctionScope (b : Build) (n : Node) (scope : Nat) : Build :=
  { b with functionScopes := (n.ident, scope) :: b.functionScopes }

def noteParams (b : Build) (n : Node) (params : List Nat) : Build :=
  { b with params := (n.ident, params) :: b.params }

def shareFunctionBody (b : Build) (n : Node) : Build :=
  match n.child? .body with
  | some body => if body.kind == .blockStatement then b.shareBody body else b
  | none => b

def enterFunction (b : Build) (n : Node) (scope : Nat) : Nat × Build :=
  let b := (b.noteFunction n).declareFunctionName n .functionDeclaration (b.varScope scope)
  let (inner, b) := b.openScope .function n (b.scopeChain scope)
  let b := (b.noteFunctionScope n inner).declareFunctionName n .functionExpression inner
  let (params, b) := b.declareParams inner n
  (inner, (b.noteParams n params).shareFunctionBody n)

def enterCatch (b : Build) (n : Node) (scope : Nat) : Nat × Build :=
  let (inner, b) := b.openScope .caught n (b.scopeChain scope)
  let b := match n.child? .param with
    | some p => (b.declarePattern inner p { sort := .caught, declarator := n }).2
    | none => b
  let b := match n.child? .body with
    | some body => b.shareBody body
    | none => b
  (inner, b)

def enterVariables (b : Build) (n : Node) (scope : Nat) : Build :=
  let sort := BindingSort.ofWord n.sort
  let target := if sort == .var then b.varScope scope else scope
  (n.list .declarations).foldl (fun b d =>
    match d.child? .id with
    | some pattern =>
      (b.declarePattern target pattern
        { sort := sort, declarator := d, initial := d.child? .initial }).2
    | none => b) b

def noteNode (b : Build) (n : Node) (path : List (Node × Field)) (scope : Nat) : Build :=
  match n.kind with
  | .variableDeclaration => b.enterVariables n scope
  | .classDeclaration =>
    match n.child? .id with
    | some ident =>
      (b.declare scope ident { sort := .classDecl, declarator := n, initial := n }).2
    | none => b
  | .importDeclaration =>
    (n.list .specifiers).foldl (fun b spec =>
      match spec.child? .localName with
      | some ident => (b.declare 0 ident { sort := .imported, declarator := spec }).2
      | none => b) b
  | .assignmentExpression | .forInStatement | .forOfStatement => b.noteLeft n scope
  | .updateExpression =>
    match n.child? .argument with
    | some a => if a.kind == .identifier then b.noteWrite scope n a else b
    | none => b
  | .identifier =>
    if b.isRead n path then { b with reads := (n, scope) :: b.reads } else b
  | .memberExpression =>
    match n.dotted? with
    | some chain => { b with chains := b.chains.push chain n }
    | none => b
  | .callExpression | .newExpression => { b with calls := n :: b.calls }
  | _ => b

def enter (b : Build) (n : Node) (path : List (Node × Field)) (scope : Nat) : Nat × Build :=
  if n.kind.isFunction then b.enterFunction n scope
  else if n.kind.opensBlock && !b.sharedBodies.contains n then
    b.openScope .block n (b.scopeChain scope)
  else if n.kind == .catchClause then b.enterCatch n scope
  else (scope, b.noteNode n path scope)

def place (b : Build) (n : Node) (path : List (Node × Field)) (scope : Nat) : Build :=
  { b with
    nodes := n :: b.nodes
    places := b.places.insert n scope
    paths := b.paths.insert n path }

mutual

def visit (path : List (Node × Field)) (scope : Nat) : Node → Build → Build
  | .mk h ls, b =>
    let n := Node.mk h ls
    if b.places.contains n then b
    else
      let (inner, b) := (b.place n path scope).enter n path scope
      visitLinks n path n.sharesKey inner ls b

def visitLinks (parent : Node) (path : List (Node × Field)) (dropKey : Bool) (scope : Nat) :
    List Link → Build → Build
  | [], b => b
  | (f, some c) :: rest, b =>
    if dropKey && f == .key then visitLinks parent path dropKey scope rest b
    else visitLinks parent path dropKey scope rest (visit ((parent, f) :: path) scope c b)
  | (_, none) :: rest, b => visitLinks parent path dropKey scope rest b

end

/-! ## Resolving names -/

def resolveRead (b : Build) (read : Node × Nat) : Build :=
  let (ident, scope) := read
  match ident.name with
  | none => { b with nameless := true }
  | some name =>
    match b.lookup scope name with
    | some uid => { b.addReference uid ident with bound := b.bound.insert ident uid }
    | none => { b with globals := b.globals.push name ident }

def resolveWrite (b : Build) (write : Node × Node × Nat) : Build :=
  let (ident, writer, scope) := write
  match ident.name with
  | none => { b with nameless := true }
  | some name =>
    match b.lookup scope name with
    | some uid => { b.addViolation uid writer with bound := b.bound.insert ident uid }
    | none => { b with implicitGlobals := b.implicitGlobals.push name writer }

def ofProgram (root : Node) (size : Nat) : Build :=
  let (_, b) := (start size).openScope .program root []
  let b := visit [] 0 root b
  let b := b.reads.reverse.foldl resolveRead b
  b.writes.reverse.foldl resolveWrite b

end Build

end ScriptAudit
