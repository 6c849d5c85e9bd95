import ScriptAudit.Limits
import ScriptAudit.Program.Constraint
import ScriptAudit.Program.Globals
import ScriptAudit.Program.TypeTag
import ScriptAudit.Resolve.ErrorLog
import ScriptAudit.Taint.Basic

/-!
# The state of an analysis

Questions are answered one after another on a shared state: the questions that are being answered,
the calls whose arguments stand for parameters, the object shapes, and the answers already given.
The facts about the program do not change.
-/

namespace ScriptAudit

/-- What is known about a program before any question is asked. -/
structure Facts where
  model : Model
  globals : Option Globals := none
  types : Option TypeTags := none
  constraints : Option Constraints := none
  limits : Limits := {}

def Facts.ofModel (m : Model) (limits : Limits) : Facts where
  model := m
  globals := some (Globals.ofModel m)
  types := some (TypeTags.ofModel m)
  constraints := some (Constraints.ofModel m)
  limits := limits

namespace Facts

def isGlobalName (facts : Facts) (n : Option Node) (name : String) : Bool :=
  match facts.globals, n with
  | some g, some n => g.isGlobalName n name
  | _, _ => false

def isGlobalObject (facts : Facts) (n : Option Node) : Bool :=
  match facts.globals, n with
  | some g, some n => g.isGlobalObject n
  | _, _ => false

end Facts

inductive Topic where
  | values | object | array | functions | callers | receivers | taint | xhr
  deriving DecidableEq, Repr

namespace Topic

def name : Topic → String
  | values => "values"
  | object => "object"
  | array => "array"
  | functions => "functions"
  | callers => "callers"
  | receivers => "receivers"
  | taint => "taint"
  | xhr => "xhr"

def ofName? (s : String) : Option Topic :=
  [values, object, array, functions, callers, receivers, taint, xhr].find? (·.name == s)

end Topic

/-- The question about a node that a mark stands for. -/
structure Key where
  topic : Topic
  node : NodeId
  detail : Option String := none
  deriving DecidableEq, Repr

structure Passed where
  argument : Node
  key : Option String

structure Frame where
  function : Node
  call : Node
  arguments : List (Nat × Passed)

structure Shape where
  properties : Table String Node := Table.empty
  origin : Option Node := none

abbrev ShapeRef := Nat

inductive Route where
  | directName | objectProperty | assignedMember | computedMember | prototypeMethod | classMethod
  | callbackArgument | returnedFromFactory | globalAlias
  deriving DecidableEq, Repr

namespace Route

def name : Route → String
  | directName => "direct_name"
  | objectProperty => "object_property"
  | assignedMember => "assigned_member"
  | computedMember => "computed_member"
  | prototypeMethod => "prototype_method"
  | classMethod => "class_method"
  | callbackArgument => "callback_argument"
  | returnedFromFactory => "returned_from_factory"
  | globalAlias => "global_alias"

def all : List Route :=
  [directName, objectProperty, assignedMember, computedMember, prototypeMethod, classMethod,
    callbackArgument, returnedFromFactory, globalAlias]

def ofName? (s : String) : Option Route :=
  all.find? (·.name == s)

def andThen (route step : Route) : Route :=
  if route == directName then step else route

end Route

structure Alias where
  node : Node
  route : Route

structure CallSite where
  call : Node
  offset : Nat
  route : Route

/-- The functions that share one `this`, and where its members are defined. -/
structure Owner where
  functions : List Node := []
  literals : List Node := []
  cls : Option Node := none
  ctor : Option Node := none
  chain : Option String := none
  root : Option Binding := none

structure Memory where
  rejections : Nat := 0
  truncations : Nat := 0
  shapes : Array Shape := #[]
  values : Memo (NodeId × Option String) (List String) := Memo.empty
  objects : Memo NodeId (Option ShapeRef) := Memo.empty
  arrays : Memo NodeId (Option (List Node)) := Memo.empty
  functions : Memo NodeId (List Node) := Memo.empty
  paramValues : Memo (Nat × Option String) (List String) := Memo.empty
  callSites : Memo NodeId (List CallSite) := Memo.empty
  aliases : Memo NodeId (List Alias) := Memo.empty
  owners : Memo NodeId Owner := Memo.empty
  reads : Memo (String × String) (List Node) := Memo.empty
  xhr : Memo NodeId Bool := Memo.empty
  taints : Memo NodeId Taint := Memo.empty
  eventParams : List Nat := []
  handlers : List NodeId := []
  errors : ErrorLog := {}

structure Session extends Memory where
  visited : List Key := []
  frames : List Frame := []

/-! ## Questions -/

inductive Question : Type → Type where
  | values (n : Node) (property : Option String) (depth : Nat) : Question (List String)
  | object (n : Node) (depth : Nat) : Question (Option ShapeRef)
  | array (n : Node) (depth : Nat) : Question (Option (List Node))
  | functions (n : Node) (depth : Nat) : Question (List Node)
  | aliases (n : Node) : Question (List Alias)

/-! ## Computations -/

abbrev Outcome (α : Type) := EStateM.Result Fault Session α

/-- A computation that reads the facts, works on the session, asks questions and may fail, put
together from single operations. Only `guarded` marks questions as being answered, and only
`underFrame` and `underOuter` change the frames. -/
inductive Engine : Type → Type 1 where
  | done {α : Type} (a : α) : Engine α
  | andThen {α β : Type} (x : Engine β) (f : β → Engine α) : Engine α
  | facts : Engine Facts
  | session : Engine Session
  | update (f : Memory → Memory) : Engine Unit
  | fail {α : Type} (e : Fault) : Engine α
  | ask {α : Type} (q : Question α) : Engine α
  | guarded {α : Type} (k : Key) (x : Engine α) : Engine (Option (α × Bool))
  | underFrame {α : Type} (frame : Frame) (x : Engine α) : Engine α
  | underOuter {α : Type} (index : Nat) (x : Engine α) : Engine α

instance : Monad Engine where
  pure := .done
  bind := .andThen

abbrev Reply := (α : Type) → Question α → Facts → Session → Outcome α

def Engine.runWith (reply : Reply) {α : Type} (x : Engine α) (facts : Facts) (s : Session) :
    Outcome α :=
  match x with
  | .done a => .ok a s
  | .andThen x f =>
    match x.runWith reply facts s with
    | .ok a t => (f a).runWith reply facts t
    | .error e t => .error e t
  | .facts => .ok facts s
  | .session => .ok s s
  | .update f => .ok () { s with toMemory := f s.toMemory }
  | .fail e => .error e s
  | .ask q => reply α q facts s
  | .guarded k x =>
    if s.visited.contains k then .ok none { s with rejections := s.rejections + 1 }
    else
      match x.runWith reply facts { s with visited := k :: s.visited } with
      | .ok a t =>
        .ok (some (a, t.rejections == s.rejections && t.truncations == s.truncations))
          { t with visited := t.visited.erase k }
      | .error e t => .error e { t with visited := t.visited.erase k }
  | .underFrame frame x =>
    match x.runWith reply facts { s with frames := s.frames ++ [frame] } with
    | .ok a t => .ok a { t with frames := t.frames.dropLast }
    | .error e t => .error e { t with frames := t.frames.dropLast }
  | .underOuter index x =>
    match x.runWith reply facts { s with frames := s.frames.take index } with
    | .ok a t => .ok a { t with frames := t.frames ++ s.frames.drop index }
    | .error e t => .error e { t with frames := t.frames ++ s.frames.drop index }

namespace Engine

variable {α : Type}

def model : Engine Model := return (← facts).model

def globals : Engine (Option Globals) := return (← facts).globals

def limits : Engine Limits := return (← facts).limits

def nameOf (n : Node) : Engine String :=
  match n.name with
  | some name => pure name
  | none => fail .namelessIdentifier

def truncate : Engine Unit :=
  update fun s => { s with truncations := s.truncations + 1 }

end Engine

/-! ## Arguments in place of parameters -/

namespace Frame

def hidesPosition (arguments : List Node) (position : Nat) : Bool :=
  (arguments.take (position + 1)).any (·.kind == .spreadElement)

def passed? (arguments : List Node) (offset : Nat) (b : Binding) : Option Passed :=
  if b.rest then none
  else
    b.paramIndex.bind fun index =>
      let position := index + offset
      if hidesPosition arguments position then none
      else arguments[position]?.map (⟨·, b.key⟩)

def ofCall (m : Model) (function call : Node) (offset : Nat) : Frame where
  function := function
  call := call
  arguments := (m.paramsOf function).filterMap fun b =>
    (passed? (call.list .arguments) offset b).map (b.uid, ·)

end Frame

namespace Session

def boundArgument? (s : Session) (b : Binding) : Option (Nat × Passed) :=
  s.frames.zipIdx.reverse.findSome? fun (f, i) => (f.arguments.lookup b.uid).map (i, ·)

def isBound (s : Session) (function : Node) : Bool :=
  s.frames.any (·.function == function)

end Session

namespace Engine

variable {α : Type}

def withCall (function call : Node) (offset : Nat) (x : Engine α) : Engine α := do
  underFrame (Frame.ofCall (← model) function call offset) x

def boundArgument? (b : Binding) : Engine (Option (Nat × Passed)) :=
  return (← session).boundArgument? b

def boundOf? (b : Option Binding) : Engine (Option (Nat × Passed)) :=
  match b with
  | some b => boundArgument? b
  | none => pure none

def isBound (function : Node) : Engine Bool :=
  return (← session).isBound function

/-! ## Shapes -/

def newShape (shape : Shape) : Engine ShapeRef := do
  let ref := (← session).shapes.size
  update fun s => { s with shapes := s.shapes.push shape }
  return ref

def shapeAt (ref : ShapeRef) : Engine Shape :=
  return (← session).shapes[ref]?.getD {}

def changeShape (ref : ShapeRef) (f : Shape → Shape) : Engine Unit :=
  update fun s => { s with shapes := s.shapes.modify ref f }

def checkSize (ref : ShapeRef) (size : Nat) : Engine Unit := do
  if (← shapeAt ref).properties.size != size then fail .shapeChanged

def propertyOf? (ref : Option ShapeRef) (key : String) : Engine (Option Node) :=
  match ref with
  | some ref => return (← shapeAt ref).properties.get? key
  | none => pure none

def hasProperties (ref : Option ShapeRef) : Engine Bool :=
  match ref with
  | some ref => return !(← shapeAt ref).properties.isEmpty
  | none => pure false

def shapeOrNew (found : Option ShapeRef) (shape : Shape) : Engine ShapeRef :=
  match found with
  | some ref => pure ref
  | none => newShape shape

/-! ## Remembering answers -/

def consider (k : Key) (depth : Nat) (none_ : α) (lookUp : Memory → Option α)
    (keep : α → Memory → Memory) (rule : Option (Engine α)) : Engine α := do
  if (← limits).maxDepth < depth then
    truncate
    return none_
  match rule with
  | none => return none_
  | some rule =>
    let s ← session
    let framed := !s.frames.isEmpty
    match if framed then none else lookUp s.toMemory with
    | some a => return a
    | none =>
      match ← guarded k rule with
      | none => return none_
      | some (a, whole) =>
        if whole && !framed then update (keep a)
        return a

end Engine

namespace Shape

def merge (shape other : Shape) (override : Bool) : Shape where
  properties := other.properties.entries.foldl (fun t e =>
    if override then t.insert e.1 e.2 else t.insertNew e.1 e.2) shape.properties
  origin := shape.origin.orElse fun _ => other.origin

end Shape

namespace Engine

def gather (found : Option ShapeRef) (candidate : Option ShapeRef) : Engine (Option ShapeRef) :=
  match candidate with
  | none => pure found
  | some c => do
    let other ← shapeAt c
    match found with
    | none => return some (← newShape (Shape.merge { origin := other.origin } other false))
    | some ref =>
      changeShape ref (·.merge other false)
      return some ref

end Engine

end ScriptAudit
