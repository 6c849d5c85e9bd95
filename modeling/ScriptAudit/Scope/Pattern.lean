import ScriptAudit.Tree.Name

/-!
# Patterns

Identifiers in a pattern: those that a declaration declares, with the place each takes in the
pattern, and those that an assignment writes to.
-/

namespace ScriptAudit

structure PatternPlace where
  key : Option String := none
  fallback : Option Node := none
  rest : Bool := false
  depth : Nat := 0

structure PatternTarget where
  identifier : Node
  place : PatternPlace

namespace Node

mutual

def targets (p : PatternPlace) : Node → List PatternTarget
  | mk h ls =>
    match h.kind with
    | .identifier => [⟨mk h ls, p⟩]
    | .assignmentPattern => targetsAt .left { p with fallback := (mk h ls).child? .right } ls
    | .restElement => targetsAt .argument { rest := true, depth := p.depth + 1 } ls
    | .objectPattern => propertyTargets p.depth ls
    | .arrayPattern => elementTargets { depth := p.depth + 1 } ls
    | _ => []

def targetsAt (f : Field) (p : PatternPlace) : List Link → List PatternTarget
  | [] => []
  | (g, some c) :: rest => if g == f then targets p c else targetsAt f p rest
  | (_, none) :: rest => targetsAt f p rest

def elementTargets (p : PatternPlace) : List Link → List PatternTarget
  | [] => []
  | (g, some c) :: rest =>
    if g == .elements then targets p c ++ elementTargets p rest else elementTargets p rest
  | (_, none) :: rest => elementTargets p rest

def propertyTargets (depth : Nat) : List Link → List PatternTarget
  | [] => []
  | (g, some c) :: rest =>
    if g == .properties then targetsOfProperty depth c ++ propertyTargets depth rest
    else propertyTargets depth rest
  | (_, none) :: rest => propertyTargets depth rest

def targetsOfProperty (depth : Nat) : Node → List PatternTarget
  | mk h ls =>
    if h.kind == .restElement then targetsAt .argument { rest := true, depth := depth + 1 } ls
    else
      let key := if depth == 0 then (mk h ls).propertyKey? else none
      targetsAt .value { key := key, depth := depth + 1 } ls

end

mutual

def writtenNames : Node → List Node
  | mk h ls =>
    match h.kind with
    | .identifier => [mk h ls]
    | .assignmentPattern => writtenNamesAt .left ls
    | .restElement => writtenNamesAt .argument ls
    | .arrayPattern => writtenElements ls
    | .objectPattern => writtenProperties ls
    | _ => []

def writtenNamesAt (f : Field) : List Link → List Node
  | [] => []
  | (g, some c) :: rest => if g == f then writtenNames c else writtenNamesAt f rest
  | (_, none) :: rest => writtenNamesAt f rest

def writtenElements : List Link → List Node
  | [] => []
  | (g, some c) :: rest =>
    if g == .elements then writtenElements rest ++ writtenNames c else writtenElements rest
  | (_, none) :: rest => writtenElements rest

def writtenProperties : List Link → List Node
  | [] => []
  | (g, some c) :: rest =>
    if g == .properties then writtenProperties rest ++ writtenProperty c
    else writtenProperties rest
  | (_, none) :: rest => writtenProperties rest

def writtenProperty : Node → List Node
  | mk h ls =>
    if h.kind == .restElement then writtenNamesAt .argument ls else writtenNamesAt .value ls

end

end Node

end ScriptAudit
