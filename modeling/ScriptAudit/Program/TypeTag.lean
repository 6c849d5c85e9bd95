import ScriptAudit.Scope.Model

/-!
# Type tags

A coarse type for variables whose initialiser and assignments all say the same. A variable that is
given two different tags has none.
-/

namespace ScriptAudit

def nonIterableTags : List String :=
  ["XMLHttpRequest", "XDomainRequest", "Element", "Image", "WebSocket", "EventSource", "Date",
    "RegExp", "Worker", "FileReader", "Promise"]

def arrayMakers : List (String × String) :=
  [("Object", "keys"), ("Object", "values"), ("Object", "entries"), ("Array", "from"),
    ("Array", "of")]

def arrayMethods : List String :=
  ["split", "map", "filter", "slice", "concat", "querySelectorAll", "getElementsByTagName",
    "getElementsByClassName", "getElementsByName"]

def elementMethods : List String :=
  ["getElementById", "querySelector", "createElement", "closest"]

namespace Model

def callTag? (m : Model) (callee : Node) : Option String :=
  callee.memberName?.bind fun method =>
    let makesArray := (callee.child? .object).any fun o =>
      m.isUnbound o && arrayMakers.contains (o.name.getD "", method)
    if makesArray || arrayMethods.contains method then some "Array"
    else if elementMethods.contains method then some "Element"
    else none

def inferTag? (m : Model) (n : Node) : Option String :=
  match n.kind with
  | .arrayExpression => some "Array"
  | .objectExpression => some "Object"
  | .literal => if n.head.regex then some "RegExp" else none
  | .newExpression =>
    (n.child? .callee).bind fun c => if m.isUnbound c then c.name else none
  | .callExpression => (n.child? .callee).bind m.callTag?
  | _ => none

def givenValues (b : Binding) : List Node :=
  (if b.sort.isVariable then b.initial.toList else [])
    ++ b.violations.filterMap fun w =>
      match w.kind with
      | .assignmentExpression => if w.operator == "=" then w.child? .right else none
      | .variableDeclarator => w.child? .initial
      | _ => none

end Model

/-- Tags by scope and name; no tag marks a variable with conflicting ones. -/
structure TypeTags where
  model : Model
  tags : Table (Nat × String) (Option String)

namespace TypeTags

def record (t : Table (Nat × String) (Option String)) (key : Nat × String) (tag : String) :
    Table (Nat × String) (Option String) :=
  t.alter key fun
    | none => some tag
    | some (some known) => if known == tag then some tag else none
    | some none => none

def ofModel (m : Model) : TypeTags :=
  let tags := m.scopes.toList.foldl (fun t s =>
    (m.scopeBindings s).foldl (fun t b =>
      ((Model.givenValues b).filterMap m.inferTag?).foldl (record · (s.uid, b.name) ·) t) t)
    Table.empty
  ⟨m, tags⟩

def known (t : TypeTags) : List (Nat × String × String) :=
  t.tags.entries.filterMap fun e => e.2.map (e.1.1, e.1.2, ·)

def typeOf? (t : TypeTags) (ident : Node) : Option String :=
  if ident.kind == .identifier then
    let b := (t.model.binding? ident).orElse fun _ =>
      ident.name.bind fun name => t.model.lookup? name ident
    b.bind fun b => (t.tags.get? (b.scope, b.name)).join
  else none

def isNonIterable (t : TypeTags) (n : Node) : Bool :=
  let tag := if n.kind == .identifier then t.typeOf? n else t.model.inferTag? n
  tag.any nonIterableTags.contains

end TypeTags

end ScriptAudit
