import ScriptAudit.Resolve.Callers
import ScriptAudit.Resolve.Owner

/-!
# Where a value goes

The expressions that evaluate to the same value as a given one, found by following it forward:
through variables, properties, classes, callbacks and containers, returns, and global names.
-/

namespace ScriptAudit

open Engine

def iterationMethods : List (String × Nat) :=
  [("forEach", 0), ("map", 0), ("filter", 0), ("some", 0), ("every", 0), ("find", 0),
    ("findIndex", 0), ("flatMap", 0), ("reduce", 1), ("reduceRight", 1)]

def containerAdders : List String := ["push", "unshift", "add", "concat"]

def containerTakers : List String := ["shift", "pop"]

def mergeMethods : List String := ["assign", "extend", "merge", "defaults", "mixin", "assignIn"]

def mergeArguments : List Node → List Node
  | a :: rest => if a.kind == .literal && a.literalValue?.isNone then rest else a :: rest
  | [] => []

/-! ## Reads of a name -/

def bindingReads (facts : Facts) (b : Binding) (route : Route) : List Alias :=
  let asProperty :=
    if !facts.model.isModule && b.scope == 0 && (b.sort == .var || b.sort == .function) then
      (facts.globals.map (·.memberReads.getD b.name [])).getD []
    else []
  (b.references ++ asProperty).map (⟨·, route⟩)

def identifierReads (facts : Facts) (ident : Option Node) (route : Route) : List Alias :=
  match ident.bind facts.model.binding? with
  | some b => bindingReads facts b route
  | none => []

def isTarget (m : Model) (member : Node) : Bool :=
  (m.assignmentTo? member).isSome

def readsOn (m : Model) (bases : List Node) (name : String) : List Node :=
  bases.filterMap fun base =>
    (m.memberOf? base).bind fun member =>
      if member.reads name && !isTarget m member then some member else none

def aliasesOn (m : Model) (bases : List Node) (name : String) (route : Route) : List Alias :=
  (readsOn m bases name).map (⟨·, route⟩)

def globalReads (name : String) : Engine (List Node) := do
  match (← session).reads.get? (name, "") with
  | some nodes => return nodes
  | none =>
    let facts ← facts
    let nodes := match facts.globals with
      | some g => g.reads name
      | none => facts.model.globals.getD name []
    update fun s => { s with reads := s.reads.insert (name, "") nodes }
    return nodes

def globalMemberReads (name member : String) : Engine (List Node) := do
  match (← session).reads.get? (name, member) with
  | some nodes => return nodes
  | none =>
    let nodes := readsOn (← model) (← globalReads name) member
    update fun s => { s with reads := s.reads.insert (name, member) nodes }
    return nodes

def globalAliases (name : String) (route : Route) : Engine (List Alias) :=
  return (← globalReads name).map (⟨·, route⟩)

namespace Ask

/-! ## Reads of a member -/

def reached (n : Node) : Engine (List Node) :=
  return n :: (← ask (.aliases n)).map (·.node)

def valueMemberReads (value : Node) (name : String) (route : Route) : Engine (List Alias) :=
  return aliasesOn (← model) (← reached value) name route

def thisMemberReads (o : Owner) (name : String) (route : Route) : Engine (List Alias) :=
  return aliasesOn (← model) (Node.thisNodes o.functions) name route

def instances (o : Owner) : Engine (List Node) := do
  let m ← model
  match o.cls, o.ctor with
  | some cls, _ =>
    return (← reached cls).filterMap fun c =>
      (m.parent? c).bind fun p =>
        if p.kind == .newExpression && p.holds .callee c then some p else none
  | none, some ctor =>
    return ((← callSites ctor).map (·.call)).filter (·.kind == .newExpression)
  | none, none => return []

def ownerMemberReads (o : Owner) (name : String) (route : Route) : Engine (List Alias) := do
  let inside ← thisMemberReads o name route
  let ofLiterals ← o.literals.mapM (valueMemberReads · name route)
  let ofInstances ← (← instances o).mapM (valueMemberReads · name route)
  return inside ++ ofLiterals.flatten ++ ofInstances.flatten

def prototypeMemberReads (ctorExpr : Option Node) (name : String) (route : Route) :
    Engine (List Alias) := do
  let m ← model
  let onPrototype := match ctorExpr.bind Node.dotted? with
    | some chain => (m.chains.getD (chain ++ ".prototype." ++ name) []).filter (!isTarget m ·)
    | none => []
  let ctors := (← functions ctorExpr 0).filter fun c => c.kind.isClass || c.kind.isFunction
  let reads ← ctors.mapM fun c => do ownerMemberReads (← Owner.ofInstances c) name route
  return onPrototype.map (⟨·, route⟩) ++ reads.flatten

def designatedReads (object : Node) (name : String) (route : Route)
    (designated : Engine (List Node)) : Engine (List Alias) := do
  let facts ← facts
  let m := facts.model
  if facts.isGlobalObject (some object) then
    globalAliases name (route.andThen .globalAlias)
  else if object.kind == .identifier && (m.binding? object).isNone then
    return (← globalMemberReads (← nameOf object) name).map (⟨·, route⟩)
  else
    match facts.globals.bind (·.globalMember? object) with
    | some global => return (← globalMemberReads global name).map (⟨·, route⟩)
    | none =>
      if object.kind == .thisExpression then
        match m.thisFunction? object with
        | some f => ownerMemberReads (← Owner.ofFunction f) name route
        | none => return []
      else return aliasesOn m (← designated) name route

def identifierDesignates (n : Node) : Engine (List Node) := do
  let facts ← facts
  match facts.model.binding? n with
  | none => globalReads (← nameOf n)
  | some b =>
    match b.initial with
    | some value =>
      if b.isConstant && b.sort.isVariable then reached value
      else return (bindingReads facts b .directName).map (·.node)
    | none => return (bindingReads facts b .directName).map (·.node)

def thisDesignates (n : Node) : Engine (List Node) := do
  match (← model).thisFunction? n with
  | none => return []
  | some f =>
    let o ← Owner.ofFunction f
    let ofLiterals ← o.literals.mapM fun l => ask (.aliases l)
    return Node.thisNodes o.functions ++ ofLiterals.flatten.map (·.node)

mutual

def designates : Node → Engine (List Node)
  | .mk h ls => do
    let n := Node.mk h ls
    match h.kind with
    | .identifier => return n :: (← identifierDesignates n)
    | .memberExpression =>
      match n.memberName? with
      | some name => return n :: (← objectMemberReads name ls).map (·.node)
      | none => return [n]
    | .thisExpression => return n :: (← thisDesignates n)
    | _ => reached n

def objectMemberReads (name : String) : List Link → Engine (List Alias)
  | [] => pure []
  | (f, some c) :: rest =>
    if f == .object then designatedReads c name .directName (designates c)
    else objectMemberReads name rest
  | (_, none) :: rest => objectMemberReads name rest

end

def memberReads (object : Option Node) (name : String) (route : Route) : Engine (List Alias) :=
  match object with
  | some o => designatedReads o name route (designates o)
  | none => pure []

def locationReads (left : Option Node) (route : Route) : Engine (List Alias) := do
  match left with
  | none => return []
  | some left =>
    let facts ← facts
    match left.kind with
    | .identifier =>
      match facts.model.binding? left with
      | some b => return bindingReads facts b route
      | none => globalAliases (← nameOf left) (route.andThen .globalAlias)
    | .memberExpression =>
      let object := left.child? .object
      match left.memberName? with
      | none =>
        let names ← values (left.child? .property) 0
        let reads ← names.mapM (memberReads object · (route.andThen .computedMember))
        return reads.flatten
      | some name =>
        match object with
        | some o =>
          if o.reads "prototype" then
            prototypeMemberReads (o.child? .object) name (route.andThen .prototypeMethod)
          else memberReads object name (route.andThen .assignedMember)
        | none => return []
    | _ => return []

/-! ## Callbacks -/

def containerOf? (m : Model) (ref : Node) : Option Node :=
  (m.parent? ref).bind fun p =>
    if p.kind == .callExpression && m.fieldOf? ref == some .arguments then
      (p.child? .callee).bind fun callee =>
        if callee.memberName?.any containerAdders.contains then callee.child? .object else none
    else if p.kind == .assignmentExpression && p.holds .right ref then
      (p.child? .left).bind fun left =>
        if left.kind == .memberExpression && left.computed then left.child? .object else none
    else none

def loopTarget? (left : Node) : Option Node :=
  let target :=
    if left.kind == .variableDeclaration then (left.list .declarations).head?.bind (·.child? .id)
    else some left
  target.bind fun t => if t.kind == .identifier then some t else none

def itemReadsAt (node : Node) (route : Route) : Engine (List Alias) := do
  let facts ← facts
  let m := facts.model
  match m.parent? node with
  | none => return []
  | some p =>
    if p.kind == .memberExpression && p.holds .object node then
      let method := p.memberName?
      if p.computed && method.isNone && !isTarget m p then return [⟨p, route⟩]
      else
        match m.calledBy? p, method with
        | some call, some method =>
          if containerTakers.contains method then return [⟨call, route⟩]
          else
            match iterationMethods.lookup method, (call.list .arguments).head? with
            | some index, some callback =>
              let params := (← callables (some callback) 0).flatMap m.paramsOf
              let items := params.filter fun b => b.paramIndex == some index && b.key.isNone
              return items.flatMap (bindingReads facts · route)
            | _, _ => return []
        | _, _ => return []
    else if p.kind == .forOfStatement && m.fieldOf? node == some .right then
      return identifierReads facts ((p.child? .left).bind loopTarget?) route
    else return []

def passedContainers (container : Node) : Engine (List Node) := do
  match (← model).rootBinding? container with
  | some b =>
    if b.isParam then
      let groups ← (← argumentPaths b none).mapM fun path => designates path.argument
      return groups.flatten
    else return []
  | none => return []

def itemReads (container : Node) (route : Route) : Engine (List Alias) := do
  let nodes := (← designates container) ++ (← passedContainers container)
  return (← nodes.mapM (itemReadsAt · route)).flatten

def containerReads (b : Binding) (route : Route) : Engine (List Alias) := do
  let m ← model
  return (← (b.references.filterMap (containerOf? m)).mapM (itemReads · route)).flatten

def callbackReads (n call : Node) (route : Route) : Engine (List Alias) := do
  let facts ← facts
  match (call.list .arguments).findIdx? (· == n) with
  | none => return []
  | some position =>
    let step := route.andThen .callbackArgument
    let params := (← callTargets call 0).flatMap fun (f, offset) =>
      if position < offset then []
      else (facts.model.paramsOf f).filter fun b =>
        b.paramIndex == some (position - offset) && b.key.isNone && !b.rest
    let reads ← params.mapM fun b =>
      return bindingReads facts b step ++ (← containerReads b step)
    return reads.flatten

def mergeReads (n call : Node) (route : Route) : Engine (List Alias) := do
  let callee := call.child? .callee
  let arguments := mergeArguments (call.list .arguments)
  if !((callee.bind Node.memberName?).any mergeMethods.contains) || !arguments.contains n then
    return []
  let target := match arguments with
    | [_] => callee.bind (·.child? .object)
    | first :: _ => if first == n then none else some first
    | [] => none
  match target with
  | none => return []
  | some t =>
    let nodes := (← designates t).filter (· != n)
    return (nodes ++ [call]).map (⟨·, route⟩)

/-! ## One step forward -/

def propertyFlow (n property : Node) (route : Route) : Engine (List Alias) := do
  let m ← model
  match m.parent? property, property.propertyKey? with
  | some literal, some name =>
    if literal.kind != .objectExpression then return []
    let step := route.andThen .objectProperty
    let reads ← valueMemberReads literal name step
    if n.kind.isFunction then
      return reads ++ (← thisMemberReads (← Owner.ofFunction n) name step)
    else return reads
  | _, _ => return []

def methodFlow (n method : Node) (route : Route) : Engine (List Alias) := do
  let m ← model
  let step := route.andThen .classMethod
  match m.grandparent? method with
  | none => return []
  | some cls =>
    if method.sort == "constructor" then return [⟨cls, step⟩]
    else
      match method.propertyKey? with
      | some name =>
        if method.head.isStatic then valueMemberReads cls name step
        else ownerMemberReads (← Owner.ofFunction n) name step
      | none => return []

def returnFlow (f : Option Node) (route : Route) : Engine (List Alias) := do
  match f with
  | none => return []
  | some f =>
    let sites := (← callSites f).filter (·.offset ≤ 1)
    return sites.map fun s => ⟨s.call, route.andThen .returnedFromFactory⟩

def flowFrom (n parent : Node) (field : Field) (route : Route) : Engine (List Alias) := do
  let facts ← facts
  let m := facts.model
  match parent.kind, field with
  | .variableDeclarator, .initial =>
    return identifierReads facts ((parent.child? .id).bind fun i =>
      if i.kind == .identifier then some i else none) route
  | .assignmentExpression, .right =>
    if ["=", "||=", "??="].contains parent.operator then
      return ⟨parent, route⟩ :: (← locationReads (parent.child? .left) route)
    else return []
  | .property, .value => propertyFlow n parent route
  | .methodDefinition, .value => methodFlow n parent route
  | .callExpression, .arguments | .newExpression, .arguments =>
    return (← callbackReads n parent route) ++ (← mergeReads n parent route)
  | .returnStatement, _ => returnFlow (m.enclosingFunction? n) route
  | .arrowFunctionExpression, .body => returnFlow (some parent) route
  | .logicalExpression, _ => return [⟨parent, route⟩]
  | .conditionalExpression, field =>
    return if field == .test then [] else [⟨parent, route⟩]
  | .sequenceExpression, _ =>
    return if (parent.last? .expressions).any (· == n) then [⟨parent, route⟩] else []
  | .memberExpression, .object =>
    if parent.reads "bind" then
      match m.calledBy? parent with
      | some call =>
        return if (call.list .arguments).length ≤ 1 then [⟨call, route⟩] else []
      | none => return []
    else return []
  | _, _ => return []

def flowStep (n : Node) (route : Route) : Engine (List Alias) := do
  let facts ← facts
  let declared :=
    if n.kind == .functionDeclaration || n.kind == .classDeclaration then
      identifierReads facts (n.child? .id) route
    else []
  match facts.model.parent? n, facts.model.fieldOf? n with
  | some parent, some field => return declared ++ (← flowFrom n parent field route)
  | _, _ => return declared

/-! ## All steps -/

end Ask

structure Flow where
  seen : List NodeId
  found : List Alias := []
  work : List (Alias × Nat)
  full : Bool := false

namespace Flow

def take (cap maxDepth distance : Nat) (fl : Flow) : List Alias → Flow
  | [] => fl
  | a :: rest =>
    if fl.seen.contains a.node.ident then fl.take cap maxDepth distance rest
    else
      let fl : Flow := { fl with
        seen := a.node.ident :: fl.seen
        found := fl.found ++ [a]
        work := if distance + 1 < maxDepth then fl.work ++ [(a, distance + 1)] else fl.work }
      if cap ≤ fl.found.length then { fl with full := true }
      else fl.take cap maxDepth distance rest

def left (cap : Nat) (fl : Flow) : Nat :=
  fl.work.length + (cap - fl.found.length)

theorem left_take_le {cap maxDepth distance : Nat} {fl : Flow} (next : List Alias)
    (hroom : fl.found.length < cap) : (fl.take cap maxDepth distance next).left cap ≤ fl.left cap := by
  induction next generalizing fl with
  | nil => exact Nat.le_refl _
  | cons a rest ih =>
    unfold take
    split
    · exact ih hroom
    · dsimp only
      split
      · simp only [left, List.length_append, List.length_singleton]
        split <;> grind
      · next hless =>
          refine Nat.le_trans (ih (Nat.lt_of_not_le hless)) ?_
          simp only [left, List.length_append, List.length_singleton]
          split <;> grind

theorem left_next_lt {cap distance : Nat} {fl : Flow} {a : Alias} {work : List (Alias × Nat)}
    (hwork : fl.work = (a, distance) :: work) (hroom : ¬cap ≤ fl.found.length) (maxDepth : Nat)
    (next : List Alias) :
    (take cap maxDepth distance { fl with work := work } next).left cap < fl.left cap := by
  refine Nat.lt_of_le_of_lt (left_take_le next (Nat.lt_of_not_le hroom)) ?_
  simp only [left, hwork, List.length_cons]
  omega

end Flow

namespace Ask

def follow (cap maxDepth : Nat) (fl : Flow) : Engine Flow :=
  match _ : fl.work with
  | [] => pure fl
  | (a, distance) :: work =>
    if _ : cap ≤ fl.found.length then pure fl
    else do
      let next ← flowStep a.node a.route
      let taken := Flow.take cap maxDepth distance { fl with work := work } next
      if taken.full then
        truncate
        return taken
      else follow cap maxDepth taken
termination_by fl.left cap
decreasing_by exact Flow.left_next_lt ‹_› ‹_› maxDepth next

def valueAliases (n : Node) : Engine (List Alias) := do
  match (← session).aliases.get? n.ident with
  | some known => return known
  | none =>
    let facts ← facts
    let cap := facts.limits.maxCallers * 4
    let route := if n.kind.isFunction then bindingRoute facts n else .directName
    let start : Flow := { seen := [n.ident], work := [(⟨n, route⟩, 0)] }
    match ← guarded ⟨.receivers, n.ident, none⟩
        (follow cap facts.limits.maxDepth start) with
    | none => return []
    | some (fl, whole) =>
      if whole && (← session).frames.isEmpty then
        update fun s => { s with aliases := s.aliases.insert n.ident fl.found }
      return fl.found

end Ask

end ScriptAudit
