import ScriptAudit.Tree.Node

/-!
# Names and texts of nodes

What can be read off a node without the program around it: the key of a property, the property that
is read, the text of a literal, the dotted name of a member chain, and a template with its gaps
named.
-/

namespace ScriptAudit.Node

def literalText? (n : Node) : Option String :=
  if n.kind == .literal && !n.head.regex then
    match n.head.literal with
    | some (.text s) => some s
    | some (.number x) => some x.text
    | _ => none
  else none

def literalValue? (n : Node) : Option Scalar :=
  if n.kind == .literal && !n.head.regex then
    match n.head.literal with
    | some (.text s) => some (.text s)
    | some (.number x) => some (.number x)
    | _ => none
  else none

def stringLiteral? (n : Node) : Option String :=
  if n.kind == .literal then
    match n.head.literal with
    | some (.text s) => some s
    | _ => none
  else none

def propertyKey? (n : Node) : Option String :=
  (n.child? .key).bind fun k =>
    if n.computed then k.stringLiteral?
    else match k.kind with
      | .identifier => k.name
      | .literal => k.literalText?
      | _ => none

def memberName? (n : Node) : Option String :=
  if n.kind == .memberExpression then
    (n.child? .property).bind fun p => if n.computed then p.stringLiteral? else p.name
  else none

def reads (n : Node) (p : String) : Bool :=
  n.memberName? == some p

mutual

def objectChain : Node → List Node
  | mk h ls => mk h ls :: if h.kind == .memberExpression then objectChainAt ls else []

def objectChainAt : List Link → List Node
  | [] => []
  | (f, some c) :: rest => if f == .object then objectChain c else objectChainAt rest
  | (_, none) :: rest => objectChainAt rest

end

def chainRoot (n : Node) : Node :=
  n.objectChain.getLast?.getD n

def rootName? (n : Node) : Option String :=
  match n.kind with
  | .identifier => n.name
  | .thisExpression => some "this"
  | _ => none

def linkName? (n : Node) : Option String :=
  if n.kind == .memberExpression then n.memberName? else n.rootName?

def chainNames? (n : Node) : Option (List String) :=
  (n.objectChain.mapM linkName?).map List.reverse

def dotted? (n : Node) : Option String :=
  n.chainNames?.map (".".intercalate ·)

def cookedText (quasi : Node) : String :=
  (quasi.head.cooked.orElse fun _ => quasi.head.raw).getD ""

def rawText (quasi : Node) : String :=
  match quasi.head.raw with
  | some "" | none => quasi.head.cooked.getD ""
  | some s => s

def gap (name : String) : String :=
  "\x7b" ++ name ++ "\x7d"

def gapName (n : Node) (place : Nat) : String :=
  match n.dotted? with
  | some "" | none => "param" ++ toString place
  | some s => s

def placeholderFrom (i : Nat) : List Node → List Node → List String
  | [], _ => []
  | q :: qs, e :: es =>
    let name := if e.kind == .identifier then e.name.getD "" else e.gapName i
    rawText q :: gap name :: placeholderFrom (i + 1) qs es
  | q :: qs, [] => rawText q :: placeholderFrom (i + 1) qs []

def placeholder (n : Node) : String :=
  String.join (placeholderFrom 0 (n.list .quasis) (n.list .expressions))

end ScriptAudit.Node
