/-!
# Taint

Where a value comes from: the program's own text, something the analysis does not follow, or a
source that a user controls. A value made of several parts is as tainted as the worst of them.
-/

namespace ScriptAudit

inductive TaintKind where
  | literal | dynamic | userControlled
  deriving DecidableEq, Repr

namespace TaintKind

def name : TaintKind → String
  | literal => "literal"
  | dynamic => "dynamic"
  | userControlled => "user_controlled"

def ofName? (s : String) : Option TaintKind :=
  [literal, dynamic, userControlled].find? (·.name == s)

end TaintKind

structure Taint where
  kind : TaintKind
  label : Option String := none
  place : Option (Option Int × Option Int) := none
  deriving DecidableEq, Repr

namespace Taint

def literal : Taint := ⟨.literal, none, none⟩

def dynamic : Taint := ⟨.dynamic, none, none⟩

def isUserControlled (t : Taint) : Bool :=
  t.kind == .userControlled

def combine (parts : List Taint) : Taint :=
  match parts.find? isUserControlled with
  | some t => t
  | none => if parts.any (·.kind == .dynamic) then dynamic else literal

end Taint

end ScriptAudit
