import ScriptAudit.Resolve.Callers

/-!
# Array elements

The elements that an array is known to have.
-/

namespace ScriptAudit.Ask

open Engine

def appendElements (found extra : Option (List Node)) : Option (List Node) :=
  match extra with
  | some es => some (found.getD [] ++ es)
  | none => found

def gatherElements (nodes : List Node) (depth : Nat) : Engine (Option (List Node)) :=
  nodes.foldlM (fun found n => return appendElements found (← ask (.array n depth))) none

def literalElements (n : Node) (depth : Nat) : Engine (Option (List Node)) := do
  let groups ← (n.list .elements).mapM fun e => do
    if e.kind == .spreadElement then
      return (← Ask.array (e.child? .argument) (depth + 1)).getD []
    else return [e]
  return some groups.flatten

def firstElements (depth : Nat) : List Node → Engine (Option (List Node))
  | [] => pure none
  | n :: rest => do
    match ← ask (.array n depth) with
    | some es => return some es
    | none => firstElements depth rest

def addedElements (m : Model) (b : Binding) : List Node :=
  b.references.flatMap fun ref =>
    match m.memberOf? ref with
    | some member =>
      if member.reads "push" || member.reads "unshift" then
        match m.calledBy? member with
        | some call => (call.list .arguments).filter (·.kind != .spreadElement)
        | none => []
      else []
    | none => []

def passedElements (index : Nat) (passed : Passed) (depth : Nat) : Engine (Option (List Node)) :=
  underOuter index do
    Ask.array (← takenFrom passed.argument passed.key (depth + 1)) (depth + 1)

def declaredElements (b : Binding) (depth : Nat) : Engine (Option (List Node)) := do
  match b.initial, b.sort.isVariable with
  | some value, true => ask (.array value (depth + 1))
  | _, _ =>
    if b.isParam then
      gatherElements ((← argumentPaths b none).map (·.argument)) (depth + 1)
    else return none

def identifierElements (n : Node) (depth : Nat) : Engine (Option (List Node)) := do
  let facts ← facts
  match facts.model.binding? n with
  | none =>
    match facts.globals with
    | some g =>
      firstElements (depth + 1) ((g.lookup (← nameOf n)).map (·.definition))
    | none => return none
  | some b =>
    match ← boundArgument? b with
    | some (index, passed) => passedElements index passed depth
    | none =>
      return (← declaredElements b depth).map fun es =>
        (es ++ addedElements facts.model b).take (facts.limits.maxValues * 5)

def memberElements (n : Node) (depth : Nat) : Engine (Option (List Node)) := do
  match n.memberName? with
  | none => return none
  | some name =>
    Ask.array (← Ask.objectProperty (n.child? .object) name (depth + 1)) (depth + 1)

def concatenatedElements (receiver : Option Node) (arguments : List Node) (depth : Nat) :
    Engine (Option (List Node)) := do
  match ← Ask.array receiver (depth + 1) with
  | none => return none
  | some base =>
    let groups ← arguments.mapM fun a => return (← ask (.array a (depth + 1))).getD [a]
    return some (base ++ groups.flatten)

def pieces (s separator : String) : List Node :=
  if separator.isEmpty then s.toList.map fun c => Node.piece (String.singleton c)
  else (Text.split s separator).map Node.piece

def splitElements (receiver : Option Node) (separator : Option String) (depth : Nat) :
    Engine (Option (List Node)) := do
  match separator with
  | none => return none
  | some separator =>
    match (← Ask.values receiver (depth + 1)).head? with
    | none => return none
    | some s =>
      let found := pieces s separator
      return if found.isEmpty then none else some found

def callElements (call : Node) (depth : Nat) : Engine (Option (List Node)) := do
  let callee := call.child? .callee
  let receiver := callee.bind (·.child? .object)
  match callee.bind Node.memberName?, call.list .arguments with
  | some "concat", arguments => concatenatedElements receiver arguments depth
  | some "split", separator :: _ => splitElements receiver separator.literalText? depth
  | _, _ =>
    foldReturns call depth none fun found returned =>
      return appendElements found (← ask (.array returned (depth + 1)))

def arrayRule (n : Node) (depth : Nat) : Option (Engine (Option (List Node))) :=
  match n.kind with
  | .arrayExpression => some (literalElements n depth)
  | .identifier => some (identifierElements n depth)
  | .memberExpression => some (memberElements n depth)
  | .callExpression => some (callElements n depth)
  | .conditionalExpression | .logicalExpression =>
    some (gatherElements (n.branches.filter (· != n)) (depth + 1))
  | _ => none

end ScriptAudit.Ask
