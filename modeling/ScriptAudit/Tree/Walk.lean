import ScriptAudit.Tree.Node

/-!
# Walking a tree

Traversals by recursion on the tree: everything, what belongs to the same function, the expressions
a concatenation or a branching expression is made of, and the identifiers that flow into a value.
-/

namespace ScriptAudit.Node

/-! ## Pre-order -/

mutual

def walk : Node → List Node
  | mk h ls => mk h ls :: walkLinks (mk h ls).sharesKey ls

def walkLinks (dropKey : Bool) : List Link → List Node
  | [] => []
  | (f, some c) :: rest =>
    if dropKey && f == .key then walkLinks dropKey rest else walk c ++ walkLinks dropKey rest
  | (_, none) :: rest => walkLinks dropKey rest

end

/-! ## Within one function -/

mutual

def walkOutside : Node → List Node
  | mk h ls =>
    mk h ls :: if h.kind.isFunction then [] else walkOutsideLinks (mk h ls).sharesKey ls

def walkOutsideLinks (dropKey : Bool) : List Link → List Node
  | [] => []
  | (f, some c) :: rest =>
    if dropKey && f == .key then walkOutsideLinks dropKey rest
    else walkOutside c ++ walkOutsideLinks dropKey rest
  | (_, none) :: rest => walkOutsideLinks dropKey rest

end

def walkOwn (n : Node) : List Node :=
  n :: walkOutsideLinks n.sharesKey n.links

mutual

def thisWithin : Node → List Node
  | mk h ls =>
    if h.kind == .thisExpression then [mk h ls]
    else if h.kind.bindsThis || h.kind.isClass then []
    else thisWithinLinks (mk h ls).sharesKey ls

def thisWithinLinks (dropKey : Bool) : List Link → List Node
  | [] => []
  | (f, some c) :: rest =>
    if dropKey && f == .key then thisWithinLinks dropKey rest
    else thisWithinLinks dropKey rest ++ thisWithin c
  | (_, none) :: rest => thisWithinLinks dropKey rest

end

def thisNodes (functions : List Node) : List Node :=
  functions.flatMap fun f => (f.bodyNode?.map thisWithin).getD []

/-! ## Parts of an expression -/

mutual

def concatTerms : Node → List Node
  | mk h ls =>
    if h.kind == .binaryExpression && h.operator == "+" then
      concatTermsAt .left ls ++ concatTermsAt .right ls
    else [mk h ls]

def concatTermsAt (f : Field) : List Link → List Node
  | [] => []
  | (g, some c) :: rest => if g == f then concatTerms c else concatTermsAt f rest
  | (_, none) :: rest => concatTermsAt f rest

end

mutual

def branches : Node → List Node
  | mk h ls =>
    if h.kind == .conditionalExpression then
      branchesAt .consequent ls ++ branchesAt .alternate ls
    else if h.kind == .logicalExpression && (h.operator == "||" || h.operator == "??") then
      branchesAt .left ls ++ branchesAt .right ls
    else if h.kind == .logicalExpression && h.operator == "&&" then
      branchesAt .right ls
    else [mk h ls]

def branchesAt (f : Field) : List Link → List Node
  | [] => []
  | (g, some c) :: rest => if g == f then branches c else branchesAt f rest
  | (_, none) :: rest => branchesAt f rest

end

def flowFields (members : Bool) : Kind → List Field
  | .binaryExpression | .logicalExpression => [.left, .right]
  | .conditionalExpression => [.test, .consequent, .alternate]
  | .callExpression | .newExpression => [.arguments]
  | .templateLiteral => [.expressions]
  | .memberExpression => if members then [.object] else []
  | _ => []

mutual

def flowingNames (members : Bool) : Node → List String
  | mk h ls =>
    if h.kind == .identifier then h.name.toList
    else flowingNamesAt members (flowFields members h.kind) ls

def flowingNamesAt (members : Bool) (fields : List Field) : List Link → List String
  | [] => []
  | (f, some c) :: rest =>
    if fields.contains f then flowingNames members c ++ flowingNamesAt members fields rest
    else flowingNamesAt members fields rest
  | (_, none) :: rest => flowingNamesAt members fields rest

end

end ScriptAudit.Node
