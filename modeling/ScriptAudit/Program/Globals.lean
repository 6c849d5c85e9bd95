import ScriptAudit.Distinct
import ScriptAudit.Scope.Model

/-!
# Global definitions

What a program makes reachable by a global name: properties assigned to the global object, implicit
globals and top-level declarations of a script, and, apart from these, what a module exports.
-/

namespace ScriptAudit

inductive Via where
  | property | implicit | declaration | exported
  deriving DecidableEq, Repr

def Via.name : Via → String
  | property => "property"
  | implicit => "implicit"
  | declaration => "declaration"
  | exported => "export"

structure GlobalEntry where
  name : String
  definition : Node
  scopePath : List Nat
  via : Via

def globalObjectNames : List String :=
  ["window", "self", "globalThis", "global", "top", "parent", "frames"]

namespace Model

def isGlobalRoot (m : Model) (aliases : List Nat) (n : Node) : Bool :=
  match n.kind with
  | .identifier =>
    match m.binding? n with
    | some b => aliases.contains b.uid
    | none => (n.name.any globalObjectNames.contains) && m.isUnbound n
  | .thisExpression =>
    !m.isModule && !(m.ancestors n).any fun a => a.kind.bindsThis || a.kind == .classBody
  | _ => false

def isGlobalObjectWith (m : Model) (aliases : List Nat) (n : Node) : Bool :=
  n.objectChain.all fun c =>
    if c.kind == .memberExpression then c.memberName?.any globalObjectNames.contains
    else m.isGlobalRoot aliases c

end Model

mutual

def isGlobalExpr (m : Model) (aliases : List Nat) : Node → Bool
  | .mk h ls =>
    match h.kind with
    | .conditionalExpression =>
      isGlobalExprAt m aliases .consequent ls || isGlobalExprAt m aliases .alternate ls
    | .logicalExpression =>
      isGlobalExprAt m aliases .left ls || isGlobalExprAt m aliases .right ls
    | _ => m.isGlobalObjectWith aliases (.mk h ls)

def isGlobalExprAt (m : Model) (aliases : List Nat) (f : Field) : List Link → Bool
  | [] => false
  | (g, some c) :: rest =>
    if g == f then isGlobalExpr m aliases c else isGlobalExprAt m aliases f rest
  | (_, none) :: rest => isGlobalExprAt m aliases f rest

end

namespace Model

def passesGlobal (m : Model) (aliases : List Nat) (arguments : List Node) (b : Binding) : Bool :=
  b.key.isNone &&
    match b.paramIndex with
    | some i => arguments[i]?.any (isGlobalExpr m aliases)
    | none => false

def aliasParams (m : Model) (aliases : List Nat) : List Nat :=
  m.calls.foldl (fun aliases call =>
    match call.child? .callee with
    | some callee =>
      if callee.kind == .functionExpression || callee.kind == .arrowFunctionExpression then
        (m.paramsOf callee).foldl (fun aliases b =>
          if m.passesGlobal aliases (call.list .arguments) b then addNew aliases b.uid
          else aliases) aliases
      else aliases
    | none => aliases) aliases

def aliasVariables (m : Model) (aliases : List Nat) : List Nat :=
  m.scopes.toList.foldl (fun aliases s =>
    (m.scopeBindings s).foldl (fun aliases b =>
      if b.sort.isVariable && b.isConstant && b.initial.any (isGlobalExpr m aliases) then
        addNew aliases b.uid
      else aliases) aliases) aliases

def aliasRound (m : Model) (aliases : List Nat) : List Nat :=
  m.aliasVariables (m.aliasParams aliases)

def globalAliases (m : Model) : List Nat :=
  m.aliasRound (m.aliasRound [])

end Model

structure Globals where
  model : Model
  aliases : List Nat
  entries : Table String (List GlobalEntry) := Table.empty
  exports : Table String (List GlobalEntry) := Table.empty
  memberReads : Table String (List Node) := Table.empty

namespace Globals

/-! ## Questions -/

def isAlias (g : Globals) (b : Binding) : Bool :=
  g.aliases.contains b.uid

def isGlobalObject (g : Globals) (n : Node) : Bool :=
  g.model.isGlobalObjectWith g.aliases n

def globalMember? (g : Globals) (n : Node) : Option String :=
  n.memberName?.bind fun name =>
    if (n.child? .object).any g.isGlobalObject then some name else none

def isGlobalName (g : Globals) (n : Node) (name : String) : Bool :=
  if n.kind == .identifier then g.model.isUnboundName n name
  else g.globalMember? n == some name

def lookup (g : Globals) (name : String) : List GlobalEntry :=
  g.entries.getD name []

def exported (g : Globals) (name : String) : List GlobalEntry :=
  g.exports.getD name []

def reads (g : Globals) (name : String) : List Node :=
  g.model.globals.getD name [] ++ g.memberReads.getD name []

/-! ## Gathering -/

def entry (g : Globals) (name : String) (definition : Node) (via : Via) : GlobalEntry :=
  ⟨name, definition, g.model.scopeChain definition, via⟩

def define (g : Globals) (name : String) (definition : Node) (via : Via) : Globals :=
  if name.isEmpty then g
  else { g with entries := g.entries.push name (g.entry name definition via) }

def export_ (g : Globals) (name : String) (definition : Node) : Globals :=
  if name.isEmpty then g
  else { g with exports := g.exports.push name (g.entry name definition .exported) }

def isExportsObject (g : Globals) (n : Node) : Bool :=
  g.model.isUnboundName n "exports" ||
    (n.reads "exports" && (n.child? .object).any fun o => g.model.isUnboundName o "module")

def noteAssignment (g : Globals) (n : Node) : Globals :=
  match n.child? .left, n.child? .right with
  | some left, some right =>
    match left.kind with
    | .identifier =>
      if (g.model.binding? left).isNone then g.define (left.name.getD "") right .implicit else g
    | .memberExpression =>
      match left.memberName?, left.child? .object with
      | some name, some object =>
        if g.isGlobalObject object then g.define name right .property
        else if g.isExportsObject object then g.export_ name right
        else g
      | _, _ => g
    | _ => g
  | _, _ => g

def noteExport (g : Globals) (n : Node) : Globals :=
  let declaration := n.child? .declaration
  if n.kind == .exportDefaultDeclaration then
    match declaration with
    | some d => g.export_ "default" d
    | none => g
  else
    let g := match declaration with
      | some d =>
        match d.kind with
        | .functionDeclaration | .classDeclaration =>
          match d.child? .id with
          | some ident => g.export_ (ident.name.getD "") d
          | none => g
        | .variableDeclaration =>
          (d.list .declarations).foldl (fun g declarator =>
            match declarator.child? .id, declarator.child? .initial with
            | some ident, some value =>
              if ident.kind == .identifier then g.export_ (ident.name.getD "") value else g
            | _, _ => g) g
        | _ => g
      | none => g
    (n.list .specifiers).foldl (fun g spec =>
      match spec.child? .localName with
      | some inner =>
        let outer := (spec.child? .exported).getD inner
        if inner.kind == .identifier then g.export_ (outer.name.getD "") inner else g
      | none => g) g

def noteNode (g : Globals) (n : Node) : Globals :=
  match n.kind with
  | .assignmentExpression => if n.operator == "=" then g.noteAssignment n else g
  | .exportNamedDeclaration | .exportDefaultDeclaration => g.noteExport n
  | .memberExpression =>
    match g.globalMember? n with
    | some name => { g with memberReads := g.memberReads.push name n }
    | none => g
  | _ => g

def noteDeclarations (g : Globals) : Globals :=
  match g.model.isModule, g.model.scopes[0]? with
  | false, some s =>
    (g.model.scopeBindings s).foldl (fun g b =>
      match b.sort, b.initial with
      | .var, some value | .function, some value => g.define b.name value .declaration
      | _, _ => g) g
  | _, _ => g

def ofModel (m : Model) : Globals :=
  noteDeclarations (m.nodes.foldl noteNode { model := m, aliases := m.globalAliases })

end Globals

end ScriptAudit
