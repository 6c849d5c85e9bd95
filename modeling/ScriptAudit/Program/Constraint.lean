import ScriptAudit.Distinct
import ScriptAudit.Scope.Model

/-!
# Value constraints

The finite sets of values that a program compares a variable with: cases of a `switch`, membership
in an array literal, chains of equality tests and `in` tests on an object literal, each kept for the
scope of the test.
-/

namespace ScriptAudit

structure Constraint where
  variable_ : String
  scope : Nat
  values : List Scalar := []
  sources : List String := []

def Constraint.add (c : Constraint) (values : List Scalar) (sources : List String) : Constraint :=
  { c with values := addAllNew c.values values, sources := c.sources ++ sources }

def isTelling : Scalar → Bool
  | .text s => !s.isEmpty
  | .number _ => true
  | .boolean _ => false

namespace Node

def testedName? (n : Node) : Option String :=
  match n.kind with
  | .identifier => n.name
  | .memberExpression => n.dotted?
  | _ => none

def literalElements (n : Node) : List Scalar :=
  (n.list .elements).filterMap literalValue?

def literalKeys (n : Node) : List String :=
  (n.list .properties).filterMap fun p => if p.kind == .property then p.propertyKey? else none

def isEqualityTest (n : Node) : Bool :=
  n.kind == .binaryExpression && ["===", "==", "!==", "!="].contains n.operator

def comparison? (n : Node) : Option (String × Scalar) :=
  if n.isEqualityTest then
    match n.child? .left, n.child? .right with
    | some l, some r =>
      match l.testedName?, r.literalValue? with
      | some v, some x => some (v, x)
      | _, _ =>
        match r.testedName?, l.literalValue? with
        | some v, some x => some (v, x)
        | _, _ => none
    | _, _ => none
  else none

mutual

def logicalLeaves : Node → List Node
  | mk h ls =>
    if h.kind == .logicalExpression then
      logicalLeavesAt .left ls ++ logicalLeavesAt .right ls
    else [mk h ls]

def logicalLeavesAt (f : Field) : List Link → List Node
  | [] => []
  | (g, some c) :: rest => if g == f then logicalLeaves c else logicalLeavesAt f rest
  | (_, none) :: rest => logicalLeavesAt f rest

end

end Node

structure Constraints where
  model : Model
  table : Table (Nat × String) Constraint := Table.empty

namespace Constraints

def add (c : Constraints) (at_ : Node) (name : String) (values : List Scalar) (source : String) :
    Constraints :=
  let telling := values.filter isTelling
  if name.isEmpty || telling.isEmpty then c
  else
    let scope := c.model.scopeOf at_
    { c with table := c.table.alter (scope, name) fun known =>
        (known.getD { variable_ := name, scope := scope }).add telling [source] }

def addSeveral (c : Constraints) (at_ : Node) (name : String) (values : List Scalar)
    (source : String) : Constraints :=
  if 2 ≤ values.length then c.add at_ name values source else c

def noteSwitch (c : Constraints) (n : Node) : Constraints :=
  match (n.child? .discriminant).bind Node.testedName? with
  | none => c
  | some name =>
    let values := (n.list .cases).filterMap fun case =>
      (case.child? .test).bind Node.literalValue?
    c.addSeveral n name values "switch"

def noteIncludes (c : Constraints) (n : Node) : Constraints :=
  match n.child? .callee, n.list .arguments with
  | some callee, argument :: _ =>
    if callee.reads "includes" then
      match argument.testedName?, callee.child? .object with
      | some name, some object =>
        match object.kind with
        | .arrayExpression => c.addSeveral n name object.literalElements "includes_inline"
        | .identifier =>
          match (c.model.binding? object).bind Binding.initial with
          | some value =>
            if value.kind == .arrayExpression then
              c.addSeveral n name value.literalElements "includes_ref"
            else c
          | none => c
        | _ => c
      | _, _ => c
    else c
  | _, _ => c

def noteEquality (c : Constraints) (n : Node) : Constraints :=
  let groups := (n.logicalLeaves.filterMap Node.comparison?).foldl
    (fun (t : Table String (List Scalar)) e => t.push e.1 e.2) Table.empty
  groups.entries.foldl (fun c e => c.addSeveral n e.1 e.2 "equality_chain") c

def noteIn (c : Constraints) (n : Node) : Constraints :=
  match n.child? .left, n.child? .right with
  | some left, some right =>
    if left.kind == .identifier && right.kind == .identifier then
      match (c.model.binding? right).bind Binding.initial with
      | some value =>
        if value.kind == .objectExpression then
          c.addSeveral n (left.name.getD "") (value.literalKeys.map Scalar.text) "in_object"
        else c
      | none => c
    else c
  | _, _ => c

def noteNode (c : Constraints) (n : Node) : Constraints :=
  match n.kind with
  | .switchStatement => c.noteSwitch n
  | .logicalExpression =>
    if (c.model.parent? n).any (·.kind == .logicalExpression) then c else c.noteEquality n
  | .binaryExpression => if n.operator == "in" then c.noteIn n else c
  | .callExpression => c.noteIncludes n
  | _ => c

def ofModel (m : Model) : Constraints :=
  m.nodes.foldl noteNode { model := m }

def lookup? (c : Constraints) (name : String) (at_ : Node) : Option Constraint :=
  (c.model.scopeChain at_).findSome? fun scope => c.table.get? (scope, name)

def joined (c : Constraints) : List Constraint :=
  (c.table.values.foldl (fun (t : Table String Constraint) x =>
    t.alter x.variable_ fun known =>
      (known.getD { variable_ := x.variable_, scope := x.scope }).add x.values x.sources)
    Table.empty).values

end Constraints

end ScriptAudit
