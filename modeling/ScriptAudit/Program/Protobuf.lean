import ScriptAudit.Table
import ScriptAudit.Tree.Name
import ScriptAudit.Tree.Walk

/-!
# Protobuf patterns

What compiled protocol buffer code leaves behind: object literals that map names to consecutive
numbers or back, and prototype methods that read a field by its number.
-/

namespace ScriptAudit

mutual

def integerOf? : Node → Option Int
  | .mk h ls =>
    if h.kind == .unaryExpression && h.operator == "-" then
      (integerAt? .argument ls).map (- ·)
    else if h.kind == .literal then
      match h.literal with
      | some (.number (.whole n)) => some n
      | _ => none
    else none

def integerAt? (f : Field) : List Link → Option Int
  | [] => none
  | (g, some c) :: rest => if g == f then integerOf? c else integerAt? f rest
  | (_, none) :: rest => integerAt? f rest

end

structure EnumPattern where
  values : Table String Int
  isReverse : Bool

structure FieldPattern where
  number : Int
  name : String

namespace EnumPattern

def minSize : Nat := 2

def maxSize : Nat := 200

def entry? (p : Node) : Option (Bool × String × Int) :=
  if p.kind != .property || p.computed || p.sort != "init" then none
  else
    match p.child? .key, p.child? .value with
    | some key, some value =>
      let named := if key.kind == .identifier then key.name else key.stringLiteral?
      match named with
      | some name => (integerOf? value).map (false, name, ·)
      | none =>
        match integerOf? key, value.stringLiteral? with
        | some n, some name => some (true, name, n)
        | _, _ => none
    | _, _ => none

def isSequence (ns : List Int) : Bool :=
  (ns.mergeSort (· ≤ ·)) == (List.range ns.length).map Int.ofNat

def ofEntries (entries : List (Bool × String × Int)) (isReverse : Bool) : Table String Int :=
  (entries.filter (·.1 == isReverse)).foldl (fun t e => t.insert e.2.1 e.2.2) Table.empty

def ofLiteral? (n : Node) : Option EnumPattern :=
  let props := n.list .properties
  if props.length < minSize || maxSize < props.length then none
  else
    (props.mapM entry?).bind fun entries =>
      let forward := ofEntries entries false
      let reverse := ofEntries entries true
      if !forward.isEmpty && reverse.isEmpty && isSequence forward.values then
        some ⟨forward, false⟩
      else if !reverse.isEmpty && forward.isEmpty && isSequence reverse.values then
        some ⟨reverse, true⟩
      else none

end EnumPattern

namespace FieldPattern

def maxNumber : Int := 10000

def literalNumber? (n : Node) : Option Int :=
  if n.kind == .literal then
    (integerOf? n).bind fun i => if 1 ≤ i && i ≤ maxNumber then some i else none
  else none

def numberRead? (n : Node) : Option Int :=
  match n.kind with
  | .callExpression =>
    match n.childKind? .callee, n.list .arguments with
    | some .identifier, object :: number :: _ | some .memberExpression, object :: number :: _ =>
      if object.kind == .thisExpression then literalNumber? number else none
    | _, _ => none
  | .memberExpression =>
    match n.child? .object with
    | some object =>
      if n.computed && object.kind == .memberExpression
          && object.childKind? .object == some .thisExpression then
        (n.child? .property).bind literalNumber?
      else none
    | none => none
  | _ => none

def ofAssignment? (n : Node) : Option FieldPattern :=
  match n.child? .left, n.child? .right with
  | some left, some right =>
    if right.kind.isFunction && left.kind == .memberExpression && !left.computed then
      match (left.child? .property).bind Node.name with
      | some name =>
        if !name.isEmpty && (left.child? .object).any (·.reads "prototype") then
          ((right.child? .body).bind fun body => body.walk.findSome? numberRead?).map (⟨·, name⟩)
        else none
      | none => none
    else none
  | _, _ => none

end FieldPattern

def enumPatterns (nodes : List Node) : List EnumPattern :=
  nodes.filterMap fun n => if n.kind == .objectExpression then EnumPattern.ofLiteral? n else none

def fieldPatterns (nodes : List Node) : List FieldPattern :=
  nodes.filterMap fun n =>
    if n.kind == .assignmentExpression && n.operator == "=" then FieldPattern.ofAssignment? n
    else none

end ScriptAudit
