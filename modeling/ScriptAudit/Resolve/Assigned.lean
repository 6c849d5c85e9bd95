import ScriptAudit.Scope.Model

/-!
# Assigned members

What a program assigns to members of a variable or a member chain. Two chains name the same object
when they are written alike and their roots are the same.
-/

namespace ScriptAudit.Model

def assignmentTo? (m : Model) (target : Node) : Option Node :=
  (m.parent? target).bind fun p =>
    if p.kind == .assignmentExpression && p.holds .left target then some p else none

def memberOf? (m : Model) (object : Node) : Option Node :=
  (m.parent? object).bind fun p =>
    if p.kind == .memberExpression && p.holds .object object then some p else none

def calledBy? (m : Model) (callee : Node) : Option Node :=
  (m.parent? callee).bind fun p =>
    if p.kind == .callExpression && p.holds .callee callee then some p else none

def rootBinding? (m : Model) (root : Node) : Option Binding :=
  if root.kind == .identifier then m.binding? root else none

def sameBinding (a b : Option Binding) : Bool :=
  a.map (·.uid) == b.map (·.uid)

def sameNode (a b : Option Node) : Bool :=
  a.map (·.ident) == b.map (·.ident)

def sameRoot (m : Model) (root other : Node) : Bool :=
  match other.kind with
  | .identifier =>
    root.kind == .identifier && sameBinding (m.binding? other) (m.rootBinding? root)
  | .thisExpression =>
    root.kind == .thisExpression && sameNode (m.thisFunction? other) (m.thisFunction? root)
  | _ => true

def assignedMembers (m : Model) (object : Node) (property : String) : List Node :=
  match object.dotted? with
  | none => []
  | some chain =>
    (m.chains.getD (chain ++ "." ++ property) []).filterMap fun member =>
      if member == object then none
      else
        (m.assignmentTo? member).bind fun assign =>
          if assign.operator == "=" && m.sameRoot object.chainRoot member.chainRoot then
            assign.child? .right
          else none

def memberAssignments (m : Model) (b : Binding) : Table String Node :=
  b.references.foldl (fun t ref =>
    match m.memberOf? ref with
    | none => t
    | some member =>
      match member.memberName?, m.assignmentTo? member with
      | some key, some assign =>
        if assign.operator == "=" then
          match assign.child? .right with
          | some value => t.insertNew key value
          | none => t
        else t
      | _, _ => t) Table.empty

end ScriptAudit.Model
