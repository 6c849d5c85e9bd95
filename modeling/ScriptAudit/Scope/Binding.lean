import ScriptAudit.Table
import ScriptAudit.Tree.Node

/-!
# Scopes and bindings

A binding is a declared name with everything known about its declaration and its uses. A scope is a
stretch of the program in which names are declared.
-/

namespace ScriptAudit

inductive BindingSort where
  | var | lexical | constant | param | function | classDecl | caught | imported
  deriving DecidableEq, Repr

namespace BindingSort

def name : BindingSort → String
  | var => "var"
  | lexical => "let"
  | constant => "const"
  | param => "param"
  | function => "function"
  | classDecl => "class"
  | caught => "catch"
  | imported => "import"

def ofWord : String → BindingSort
  | "let" => lexical
  | "const" => constant
  | _ => var

def isVariable : BindingSort → Bool
  | var | lexical | constant => true
  | _ => false

end BindingSort

/-- A declared name. Bindings are told apart by `uid`. -/
structure Binding where
  uid : Nat
  name : String
  sort : BindingSort
  scope : Nat
  identifier : Node
  declarator : Option Node := none
  initial : Option Node := none
  function : Option Node := none
  paramIndex : Option Nat := none
  key : Option String := none
  fallback : Option Node := none
  source : Option Node := none
  rest : Bool := false
  references : List Node := []
  violations : List Node := []

namespace Binding

instance : BEq Binding := ⟨fun a b => a.uid == b.uid⟩

def isConstant (b : Binding) : Bool := b.violations.isEmpty

def isParam (b : Binding) : Bool := b.sort == .param

end Binding

inductive ScopeSort where
  | program | function | block | caught
  deriving DecidableEq, Repr

def ScopeSort.name : ScopeSort → String
  | program => "program"
  | function => "function"
  | block => "block"
  | caught => "catch"

/-- A lexical scope. `outer` lists the scopes around it, nearest first. -/
structure Scope where
  uid : Nat
  sort : ScopeSort
  node : Node
  outer : List Nat := []
  names : Table String Nat := Table.empty

def Scope.chain (s : Scope) : List Nat :=
  s.uid :: s.outer

end ScriptAudit
