import ScriptAudit.Distinct
import ScriptAudit.Scope.Model

/-!
# Control flow

A graph over the statements of a function body. Each statement is a block of its own; the branches
of an `if` part and join again; `return` and `throw` end their path; other compound statements are
not looked into.
-/

namespace ScriptAudit

structure FlowBlock where
  statements : List Node := []
  successors : List Nat := []
  predecessors : List Nat := []

/-- Blocks are known by their place in the list; the first is the entry and the second the exit. -/
structure FlowGraph where
  blocks : Array FlowBlock := #[]
  owners : List (NodeId × Nat) := []

namespace FlowGraph

def entry : Nat := 0

def exit : Nat := 1

def newBlock (g : FlowGraph) : Nat × FlowGraph :=
  (g.blocks.size, { g with blocks := g.blocks.push {} })

def link (g : FlowGraph) (source target : Nat) : FlowGraph :=
  let blocks := g.blocks.modify source fun b =>
    { b with successors := addNew b.successors target }
  { g with blocks := blocks.modify target fun b =>
      { b with predecessors := addNew b.predecessors source } }

def place (g : FlowGraph) (n : Node) (block : Nat) : FlowGraph where
  blocks := g.blocks.modify block fun b => { b with statements := b.statements ++ [n] }
  owners := (n.ident, block) :: g.owners

def blockAfter (g : FlowGraph) (current : Nat) : Nat × FlowGraph :=
  let (block, g) := g.newBlock
  (block, g.link current block)

def joinAt (g : FlowGraph) (join : Nat) : Option Nat → FlowGraph
  | some last => g.link last join
  | none => g

mutual

def addStatement (current : Nat) (g : FlowGraph) : Node → Option Nat × FlowGraph
  | .mk h ls =>
    let n := Node.mk h ls
    match h.kind with
    | .blockStatement => addBody current g ls
    | .ifStatement =>
      let (test, g) := g.blockAfter current
      let g := match n.child? .test with
        | some t => g.place t test
        | none => g
      let (join, g) := g.newBlock
      let (thenStart, g) := g.blockAfter test
      let (thenEnd, g) := addBranch .consequent thenStart g ls
      let g := g.joinAt join thenEnd
      match n.child? .alternate with
      | none => (some join, g.link test join)
      | some _ =>
        let (elseStart, g) := g.blockAfter test
        let (elseEnd, g) := addBranch .alternate elseStart g ls
        (if thenEnd.isSome || elseEnd.isSome then some join else none, g.joinAt join elseEnd)
    | kind =>
      let (block, g) := g.blockAfter current
      let g := g.place n block
      if kind == .returnStatement || kind == .throwStatement then (none, g.link block exit)
      else (some block, g)

def addBranch (f : Field) (current : Nat) (g : FlowGraph) : List Link → Option Nat × FlowGraph
  | [] => (some current, g)
  | (f', some c) :: rest =>
    if f' == f then addStatement current g c else addBranch f current g rest
  | (_, none) :: rest => addBranch f current g rest

def addBody (current : Nat) (g : FlowGraph) : List Link → Option Nat × FlowGraph
  | [] => (some current, g)
  | (f, some c) :: rest =>
    if f == .body then
      match addStatement current g c with
      | (some next, g) => addBody next g rest
      | (none, g) => (none, g)
    else addBody current g rest
  | (_, none) :: rest => addBody current g rest

end

def bare : FlowGraph := { blocks := #[{}, {}] }

def ofBody (body : Node) : FlowGraph :=
  let (last, g) :=
    if body.kind == .blockStatement || body.kind == .program then addBody entry bare body.links
    else addStatement entry bare body
  g.joinAt exit last

/-! ## Questions -/

def blockOf? (g : FlowGraph) (m : Model) (n : Node) : Option Nat :=
  (n :: m.ancestors n).findSome? fun a => g.owners.lookup a.ident

def successors (g : FlowGraph) (block : Nat) : List Nat :=
  (g.blocks[block]?.map (·.successors)).getD []

def reaches (g : FlowGraph) (target : Nat) : Nat → List Nat → List Nat → Bool
  | 0, _, _ => false
  | _ + 1, _, [] => false
  | fuel + 1, seen, block :: work =>
    if block == target then true
    else
      let next := (g.successors block).filter (!seen.contains ·)
      g.reaches target fuel (seen ++ next) (next ++ work)

def reachableAvoiding (g : FlowGraph) (target : Nat) (avoid : List Nat) : Bool :=
  if avoid.contains entry then false
  else g.reaches target (g.blocks.size + 1) (entry :: avoid) [entry]

def isSanitized (g : FlowGraph) (m : Model) (sink : Node) (sanitizers : List Node) : Bool :=
  match g.blockOf? m sink with
  | none => false
  | some block =>
    let blocks := sanitizers.filterMap (g.blockOf? m)
    if blocks.isEmpty then false
    else blocks.contains block || !g.reachableAvoiding block blocks

end FlowGraph

end ScriptAudit
