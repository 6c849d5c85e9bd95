import ScriptAudit.Number.Basic
import ScriptAudit.Tree.Kind

/-!
# Syntax nodes

A node carries what the tree format records about it and its children in source order, each under
the field that holds it; a hole in an array literal is a child that is missing. Nodes are told apart
by number, so one node may stand in two fields.
-/

namespace ScriptAudit

inductive Scalar where
  | text (s : String)
  | number (n : Number)
  | boolean (b : Bool)
  deriving DecidableEq, Repr

/-- What tells nodes apart. A node of the program has a number; a text literal that the analysis
makes up is known by its text. -/
inductive NodeId where
  | listed (n : Nat)
  | piece (text : String)
  deriving DecidableEq, Repr

/-- What a node says of itself, apart from its links. -/
structure Head where
  ident : NodeId
  kind : Kind
  span : Option (Nat × Nat) := none
  start : Option (Nat × Nat) := none
  name : Option String := none
  operator : String := ""
  sort : String := ""
  literal : Option Scalar := none
  cooked : Option String := none
  raw : Option String := none
  computed : Bool := false
  isStatic : Bool := false
  shorthand : Bool := false
  regex : Bool := false
  deriving Repr

inductive Node where
  | mk (head : Head) (links : List (Field × Option Node))

abbrev Link := Field × Option Node

namespace Node

def head : Node → Head
  | mk h _ => h

def links : Node → List Link
  | mk _ ls => ls

def ident (n : Node) : NodeId := n.head.ident

def kind (n : Node) : Kind := n.head.kind

def name (n : Node) : Option String := n.head.name

def operator (n : Node) : String := n.head.operator

def sort (n : Node) : String := n.head.sort

def computed (n : Node) : Bool := n.head.computed

def piece (s : String) : Node :=
  mk { ident := .piece s, kind := .literal, literal := some (.text s) } []

def number? (n : Node) : Option Nat :=
  match n.ident with
  | .listed i => some i
  | .piece _ => none

def same (m n : Node) : Bool :=
  m.ident == n.ident

instance : BEq Node := ⟨same⟩

def child? (n : Node) (f : Field) : Option Node :=
  n.links.findSome? fun l => if l.1 == f then l.2 else none

def slots (n : Node) (f : Field) : List (Option Node) :=
  n.links.filterMap fun l => if l.1 == f then some l.2 else none

def list (n : Node) (f : Field) : List Node :=
  (n.slots f).filterMap id

def last? (n : Node) (f : Field) : Option Node :=
  (n.list f).getLast?

def childKind? (n : Node) (f : Field) : Option Kind :=
  (n.child? f).map kind

def holds (n : Node) (f : Field) (c : Node) : Bool :=
  match n.child? f with
  | some d => d == c
  | none => false

def line? (n : Node) : Option Nat := n.head.start.map (·.1)

def column? (n : Node) : Option Nat := n.head.start.map (·.2)

def sharesKey (n : Node) : Bool :=
  n.kind == .property && n.head.shorthand &&
    match n.child? .key, n.child? .value with
    | some k, some v => k == v
    | _, _ => false

def children (n : Node) : List (Field × Node) :=
  n.links.filterMap fun l =>
    if n.sharesKey && l.1 == .key then none else l.2.map (l.1, ·)

def bodyNode? (n : Node) : Option Node :=
  match n.kind with
  | .program | .blockStatement | .classBody => none
  | _ => n.child? .body

end Node

end ScriptAudit
