import ScriptAudit.Program.ControlFlow
import ScriptAudit.Resolve.Assigned
import ScriptAudit.Text.Search

/-!
# Sanitizers

Calls that make a value harmless, and whether every way to a sink leads through one on what the sink
reads. Functions that a program defines itself are not trusted.
-/

namespace ScriptAudit

def sanitizerFunctions : List String :=
  ["encodeURIComponent", "encodeURI", "escape", "parseInt", "parseFloat", "Number", "Boolean",
    "escapeHtml", "escapeHTML", "sanitize", "sanitizeHtml", "sanitizeHTML", "encodeHTML",
    "htmlEncode"]

def sanitizerMethods : List String :=
  ["sanitize", "escape", "escapeHtml", "escapeHTML", "encode", "text"]

def sanitizerLibraries : List String := ["DOMPurify", "$", "jQuery", "_", "he", "validator"]

def sanitizerRoot? (callee : Node) : Option Node :=
  let root := callee.chainRoot
  let root := if root.kind == .callExpression then (root.child? .callee).map Node.chainRoot
    else some root
  root.bind fun r => if r.kind == .identifier then some r else none

def trustsRoot (m : Model) (root : Node) : Bool :=
  root.name.any sanitizerLibraries.contains || m.isUnbound root
    || (m.binding? root).any (·.sort == .imported)

def isSanitizerCall (m : Model) (call : Node) : Bool :=
  match call.child? .callee with
  | none => false
  | some callee =>
    if callee.kind == .identifier then
      callee.name.any sanitizerFunctions.contains && m.isUnbound callee
    else
      match callee.memberName? with
      | none => false
      | some name =>
        (sanitizerMethods.contains name || sanitizerFunctions.contains name)
          && (sanitizerRoot? callee).any (trustsRoot m)
          && (name != "text" ||
            let chain := callee.dotted?.getD ""
            Text.startsWith chain "$" || Text.startsWith chain "jQuery")

/-! ## What an expression reads -/

structure AccessPath where
  root : Option Nat
  chain : String
  deriving DecidableEq, Repr

def isPlainKey (m : Model) (n : Node) : Bool :=
  (m.parent? n).any fun p =>
    (p.kind == .memberExpression || p.kind == .property) && !p.computed
      && (p.holds .property n || p.holds .key n)

def isCallee (m : Model) (n : Node) : Bool :=
  (m.parent? n).any fun p => p.kind.isCall && p.holds .callee n

def isInnerLink (m : Model) (n : Node) : Bool :=
  (m.memberOf? n).any fun member => !(m.parent? member).any (·.holds .callee member)

def accessPath? (m : Model) (outermost : Bool) (n : Node) : Option AccessPath :=
  if n.kind != .identifier && n.kind != .memberExpression then none
  else if isPlainKey m n || isCallee m n || (outermost && isInnerLink m n) then none
  else n.dotted?.map fun chain => ⟨(m.rootBinding? n.chainRoot).map (·.uid), chain⟩

def accessPaths (m : Model) (outermost : Bool) (root : Node) : List AccessPath :=
  distinct (root.walkOwn.filterMap (accessPath? m outermost))

/-! ## Sinks -/

def sanitizes (m : Model) (paths : List AccessPath) (n : Node) : Bool :=
  n.kind == .callExpression && isSanitizerCall m n
    && (n.list .arguments).any fun a => (accessPaths m true a).any paths.contains

def isSanitizedAt (m : Model) (sink value : Node) : Bool :=
  let body := match m.enclosingFunction? sink with
    | some f => f.child? .body
    | none => some m.root
  match body with
  | none => false
  | some body =>
    let paths := accessPaths m false value
    (FlowGraph.ofBody body).isSanitized m sink (body.walkOwn.filter (sanitizes m paths))

end ScriptAudit
