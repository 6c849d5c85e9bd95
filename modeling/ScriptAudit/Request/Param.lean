import ScriptAudit.Request.Sink

/-!
# Request parameters

Parameters of the address, body and headers of a request. A parameter of the function around a
request is one of the request if its name flows into a part of it.
-/

namespace ScriptAudit

inductive ParamPlace where
  | path | method | body | options | header
  deriving DecidableEq, Repr

def ParamPlace.name : ParamPlace → String
  | path => "path"
  | method => "method"
  | body => "body"
  | options => "options"
  | header => "header"

structure Param where
  name : String
  required : Bool
  place : Option ParamPlace := none
  source : Option String := none
  fallback : Option Scalar := none
  sort : Option String := none
  values : List String := []
  validValues : List Scalar := []
  spread : Bool := false

/-! ## Parameters of functions -/

structure DeclaredParam where
  name : String
  required : Bool
  fallback : Option (Option Scalar) := none
  rest : Bool := false

namespace DeclaredParam

def optional (name : String) (fallback : Option Node) : DeclaredParam :=
  { name := name, required := false, fallback := some (fallback.bind Node.literalValue?) }

def restOf (p : Node) : DeclaredParam :=
  { name := ((p.child? .argument).bind Node.name).getD "rest", required := false, rest := true }

def ofProperty? (p : Node) : Option DeclaredParam :=
  if p.kind == .restElement then some (restOf p)
  else
    p.propertyKey?.map fun name =>
      match p.child? .value with
      | some value =>
        if value.kind == .assignmentPattern then optional name (value.child? .right)
        else { name := name, required := true }
      | none => { name := name, required := true }

def ofPattern (p : Node) : List DeclaredParam :=
  match p.kind with
  | .identifier => [{ name := p.name.getD "", required := true }]
  | .assignmentPattern =>
    match p.child? .left with
    | some left =>
      if left.kind == .identifier then [optional (left.name.getD "") (p.child? .right)] else []
    | none => []
  | .objectPattern => (p.list .properties).filterMap ofProperty?
  | .restElement => [restOf p]
  | _ => []

def ofFunction (f : Node) : List DeclaredParam :=
  (f.list .params).flatMap ofPattern

def literal? (p : DeclaredParam) : Option Scalar :=
  p.fallback.join

end DeclaredParam

/-! ## Names that flow into a request -/

structure Usage where
  path : List String := []
  method : List String := []
  body : List String := []
  options : List String := []
  header : List String := []

namespace Usage

def get (u : Usage) : ParamPlace → List String
  | .path => u.path
  | .method => u.method
  | .body => u.body
  | .options => u.options
  | .header => u.header

def map (f : List String → List String) (u : Usage) : Usage :=
  ⟨f u.path, f u.method, f u.body, f u.options, f u.header⟩

def places : List ParamPlace := [.path, .method, .body, .options, .header]

def placeOf? (u : Usage) (name : String) : Option ParamPlace :=
  places.find? fun p => (u.get p).contains name

end Usage

def namesIn (n : Option Node) (members : Bool) : List String :=
  (n.map (Node.flowingNames members)).getD []

def withInitialisers (m : Model) (function : Node) (declared : List String)
    (names : List String) : List String :=
  names ++ names.flatMap fun name =>
    if declared.contains name then []
    else
      match m.lookup? name ((function.child? .body).getD function) with
      | some b => if b.sort.isVariable then namesIn b.initial true else []
      | none => []

/-! ## Parameters of functions in requests -/

def Param.comesFrom (p : Param) (d : DeclaredParam) : Bool :=
  p.source == some d.name || p.name == d.name

def Param.adopt (p : Param) (d : DeclaredParam) : Param :=
  if p.comesFrom d && !d.required then
    { p with required := false, fallback := d.literal?.orElse fun _ => p.fallback }
  else p

def DeclaredParam.used? (d : DeclaredParam) (body : List Param) (u : Usage) : Option Param :=
  if d.rest || body.any (·.comesFrom d) then none
  else
    (u.placeOf? d.name).map fun place =>
      { name := d.name, required := d.required, place := some place,
        source := some "function_param", fallback := d.literal? }

def functionParams (m : Model) (function : Option Node) (body : List Param) (u : Usage) :
    List Param × List Param :=
  match function with
  | none => (body, [])
  | some f =>
    let declared := DeclaredParam.ofFunction f
    let u := u.map (withInitialisers m f (declared.map (·.name)))
    (declared.foldl (fun body d => body.map (·.adopt d)) body, declared.filterMap (·.used? body u))

def Param.withValidValues (c : Option Constraints) (at_ : Node) (p : Param) : Param :=
  if p.spread then p
  else
    let name := match p.source with
      | some "" | some "function_param" | none => p.name
      | some s => s
    match c.bind (·.lookup? name at_) with
    | some found =>
      if 2 ≤ found.values.length && found.values.length ≤ 50 then
        { p with validValues := found.values }
      else p
    | none => p

end ScriptAudit
