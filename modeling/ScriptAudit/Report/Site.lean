import ScriptAudit.Distinct
import ScriptAudit.Json.Access

/-!
# Call sites

Records of requests, joined where they have the same method and address. Later ones add headers the
first lacks, parameters it does not name, and values it has not seen.
-/

namespace ScriptAudit

abbrev SiteParam := Table String Json

/-- The parameters of a call site: not given, given as `null`, or a list. -/
inductive SiteParams where
  | absent
  | void
  | listed (ps : List SiteParam)

/-- A call site. `fields` has all fields but `headers` and `params`. -/
structure SiteRecord where
  fields : Table String Json
  headers : Table String Json
  params : SiteParams

namespace SiteParam

def name (p : SiteParam) : Json :=
  p.getD "name" .null

def values (p : SiteParam) : Except Fault (List Json) :=
  let given := p.getD "values" .null
  if given.isTruthy then given.asList else .ok []

def addValues (p : SiteParam) (new : List Json) : Except Fault SiteParam := do
  let known ← values p
  return p.insert "values" (.list (addAllNew known new))

def joinInto (p : SiteParam) : List SiteParam → Except Fault (Option (List SiteParam))
  | [] => .ok none
  | q :: rest => do
    if name q == name p then
      let new ← values p
      if new.isEmpty then return some (q :: rest)
      return some ((← addValues q new) :: rest)
    else return (← joinInto p rest).map (q :: ·)

def addTo (ps : List SiteParam) (p : SiteParam) : Except Fault (List SiteParam) := do
  match ← joinInto p ps.reverse with
  | some joined => return joined.reverse
  | none => return ps ++ [p]

end SiteParam

namespace SiteParams

def toList : SiteParams → List SiteParam
  | listed ps => ps
  | _ => []

def open_ : SiteParams → Except Fault (List SiteParam)
  | absent => .ok []
  | void => .error .wrongType
  | listed ps => .ok ps

end SiteParams

namespace SiteRecord

def get (s : SiteRecord) (name : String) : Json :=
  s.fields.getD name .null

def key (s : SiteRecord) : Json × Json :=
  ((s.get "method").orElse (.text "GET"), (s.get "url").orElse (.text ""))

def absorb (s other : SiteRecord) : Except Fault SiteRecord := do
  let s := { s with
    headers := other.headers.entries.foldl (fun t e => t.insertNew e.1 e.2) s.headers }
  if other.params.toList.isEmpty then return s
  let params ← other.params.toList.foldlM SiteParam.addTo (← s.params.open_)
  let fields := match s.get "responseType" with
    | .null =>
      let given := other.get "responseType"
      if given.isTruthy then s.fields.insert "responseType" given else s.fields
    | _ => s.fields
  return { s with fields := fields, params := .listed params }

def joinInto (s : SiteRecord) : List SiteRecord → Except Fault (List SiteRecord)
  | [] => .ok [s]
  | t :: rest => do
    if t.key == s.key then return (← t.absorb s) :: rest
    else return t :: (← s.joinInto rest)

def mergeAll (sites : List SiteRecord) : Except Fault (List SiteRecord) :=
  sites.foldlM (fun merged s => s.joinInto merged) []

def ofJson (j : Json) : Except Fault SiteRecord := do
  let fields ← j.asTable
  let headers := j.get "headers"
  let params ← match j.field? "params" with
    | none => pure .absent
    | some (.list ps) => do pure (.listed (← ps.mapM Json.asTable))
    | some p => if p.isTruthy then throw .wrongType else pure .void
  return {
    fields := (fields.erase "headers").erase "params"
    headers := ← if headers.isTruthy then headers.asTable else pure Table.empty
    params := params }

def toJson (s : SiteRecord) : Json :=
  let params := match s.params with
    | .absent => []
    | .void => [("params", Json.null)]
    | .listed ps => [("params", Json.list (ps.map (Json.ofTable id)))]
  .object (s.fields.entries ++ [("headers", Json.ofTable id s.headers)] ++ params)

end SiteRecord

end ScriptAudit
