import ScriptAudit.Tree.Node

/-!
# Maps from nodes

A value for some of the nodes of a program, kept by node number. Nodes that are not in the program
have no value.
-/

namespace ScriptAudit

structure NodeMap (α : Type) where
  slots : Array (Option α)

namespace NodeMap

variable {α : Type}

def empty (size : Nat) : NodeMap α :=
  ⟨Array.replicate size none⟩

def get? (m : NodeMap α) (n : Node) : Option α :=
  n.number?.bind fun i => (m.slots[i]?).join

def contains (m : NodeMap α) (n : Node) : Bool :=
  (m.get? n).isSome

def insert (m : NodeMap α) (n : Node) (a : α) : NodeMap α :=
  match n.number? with
  | some i => ⟨m.slots.setIfInBounds i (some a)⟩
  | none => m

end NodeMap

def nodeBound (nodes : List Node) : Nat :=
  nodes.foldl (fun bound n => max bound ((n.number?.getD 0) + 1)) 0

end ScriptAudit
