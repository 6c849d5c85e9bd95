import ScriptAudit.Digest.Sha1
import ScriptAudit.Distinct
import ScriptAudit.Json.Access

/-!
# Batch reports

One report on many files: the endpoints that their requests go to, counts of findings by type and
severity, and the findings that say the same thing as one entry each. `ReportedRecord` has what a
report needs of a record, and from there on nothing can fail.
-/

namespace ScriptAudit

/-! ## What a report is made from -/

structure ReportedFinding where
  sort : String
  sink : String
  excerpt : String
  severity : String
  sourceUrl : String
  deriving DecidableEq, Repr

structure ReportedParam where
  name : Option String
  fields : Table String Json

structure ReportedSite where
  method : String
  url : String
  kind : Option String
  params : List ReportedParam
  sourceUrl : String

structure ReportedRecord where
  findings : List ReportedFinding
  sites : List ReportedSite
  patterns : List String
  unparsed : Bool
  incomplete : Bool

/-! ## Findings -/

/-- What findings are told apart by. Texts have no lone surrogates here, so each has a digest. -/
def fingerprint (sort sink excerpt : String) : String :=
  Digest.sha1 (sort ++ "|" ++ sink ++ "|" ++ excerpt)

def ReportedFinding.fingerprint (f : ReportedFinding) : String :=
  ScriptAudit.fingerprint f.sort f.sink f.excerpt

def severityRank (severity : String) : Nat :=
  match severity with
  | "high" => 3
  | "medium" => 2
  | "low" => 1
  | _ => 0

def heaviest (first : String) (rest : List String) : String :=
  rest.foldl (fun best s => if severityRank best < severityRank s then s else best) first

structure UniqueFinding where
  fingerprint : String
  sort : String
  sink : String
  severity : String
  count : Nat
  exampleFiles : List String
  deriving DecidableEq, Repr

def maxExampleFiles : Nat := 5

def UniqueFinding.ofGroup? (print : String) : List ReportedFinding → Option UniqueFinding
  | [] => none
  | f :: rest => some {
      fingerprint := print
      sort := f.sort
      sink := f.sink
      severity := heaviest f.severity (rest.map (·.severity))
      count := rest.length + 1
      exampleFiles :=
        ((distinct ((f :: rest).map (·.sourceUrl))).mergeSort (· ≤ ·)).take maxExampleFiles }

def groupFindings (findings : List ReportedFinding) : Table String (List ReportedFinding) :=
  findings.foldl (fun t f => t.push f.fingerprint f) Table.empty

def uniqueFindings (findings : List ReportedFinding) : List UniqueFinding :=
  ((groupFindings findings).entries.filterMap fun (print, group) =>
    UniqueFinding.ofGroup? print group).mergeSort fun a b => b.count ≤ a.count

/-! ## Endpoints -/

structure Endpoint where
  method : String
  url : String
  kinds : List (Option String)
  params : List ReportedParam
  sourceFiles : List String

def addNewParam (ps : List ReportedParam) (p : ReportedParam) : List ReportedParam :=
  if ps.any (·.name == p.name) then ps else ps ++ [p]

def Endpoint.absorb (e : Endpoint) (s : ReportedSite) : Endpoint :=
  { e with
    kinds := addNew e.kinds s.kind
    params := s.params.foldl addNewParam e.params
    sourceFiles := addNew e.sourceFiles s.sourceUrl }

def Endpoint.ofSite (s : ReportedSite) : Endpoint :=
  Endpoint.absorb ⟨s.method, s.url, [], [], []⟩ s

def groupSites (sites : List ReportedSite) : Table (String × String) Endpoint :=
  sites.foldl (fun t s => t.alter (s.url, s.method) fun
    | some e => e.absorb s
    | none => Endpoint.ofSite s) Table.empty

def pairLe (a b : String × String) : Bool :=
  a.1 < b.1 || (a.1 == b.1 && a.2 ≤ b.2)

def endpointsOf (sites : List ReportedSite) : List Endpoint :=
  ((groupSites sites).entries.mergeSort fun a b => pairLe a.1 b.1).map (·.2)

/-! ## Statistics -/

def total : List Nat → Nat
  | [] => 0
  | n :: ns => n + total ns

def countEach (names : List String) : Table String Nat :=
  names.foldl (fun t name => t.alter name fun n => n.getD 0 + 1) Table.empty

structure Statistics where
  records : Nat
  callSites : Nat
  findings : Nat
  findingTypes : Table String Nat
  severities : Table String Nat
  patternTypes : Table String Nat
  unparsed : Nat
  incomplete : Nat

def Statistics.ofRecords (records : List ReportedRecord) : Statistics :=
  let findings := records.flatMap (·.findings)
  { records := records.length
    callSites := total (records.map (·.sites.length))
    findings := findings.length
    findingTypes := countEach (findings.map (·.sort))
    severities := countEach (findings.map (·.severity))
    patternTypes := countEach (records.flatMap (·.patterns))
    unparsed := records.countP (·.unparsed)
    incomplete := records.countP (·.incomplete) }

/-! ## The report -/

structure BatchReport where
  failed : List Json
  files : List Json
  endpoints : List Endpoint
  statistics : Statistics
  unique : List UniqueFinding

def BatchReport.ofRecords (failed files : List Json) (records : List ReportedRecord) : BatchReport :=
  { failed := failed
    files := files
    endpoints := endpointsOf (records.flatMap (·.sites))
    statistics := .ofRecords records
    unique := uniqueFindings (records.flatMap (·.findings)) }

/-! ## Reading records -/

def Json.optionalText (j : Json) : Except Fault (Option String) :=
  match j with
  | .null => .ok none
  | .text s => .ok (some s)
  | _ => .error .wrongType

def Json.textOr (j : Json) (name fallback : String) : Except Fault String :=
  match j.field? name with
  | some x => x.asText
  | none => .ok fallback

def Json.someText (j : Json) (fallback : String) : Except Fault String :=
  (j.orElse (.text fallback)).asText

def Json.fingerprint (j : Json) : Except Fault String := do
  return ScriptAudit.fingerprint (← j.textOr "type" "") (← j.textOr "sink" "")
    (← j.textOr "excerpt" "")

namespace ReportedFinding

def ofJson (sourceUrl : String) (j : Json) : Except Fault ReportedFinding := do
  let sort ← j.need "type"
  let severity ← j.need "severity"
  let excerpt ← j.textOr "excerpt" ""
  let sink ← j.need "sink"
  let severity ← match severity with
    | .text s => pure s
    | _ => throw .notText
  return { sort := ← sort.asText, sink := ← sink.asText, excerpt, severity, sourceUrl }

end ReportedFinding

namespace ReportedParam

def ofJson (j : Json) : Except Fault ReportedParam := do
  return { name := ← (← j.need "name").optionalText, fields := ← j.asTable }

end ReportedParam

namespace ReportedSite

def ofJson (sourceUrl : String) (j : Json) : Except Fault ReportedSite := do
  return {
    method := ← (j.get "method").someText "GET"
    url := ← (j.get "url").someText ""
    kind := ← (j.get "type").optionalText
    params := ← (← j.listAt "params").mapM ReportedParam.ofJson
    sourceUrl := sourceUrl }

end ReportedSite

namespace ReportedRecord

def sourceUrl (j : Json) (parts : List Json) : Except Fault String :=
  if parts.isEmpty then .ok "" else do (← j.need "sourceUrl").asText

def ofJson (j : Json) : Except Fault ReportedRecord := do
  let findings ← (← j.need "securitySinks").asList
  let sites ← (← j.need "fetchCallSites").asList
  let url ← sourceUrl j (findings ++ sites)
  let sites ← sites.mapM (ReportedSite.ofJson url)
  let findings ← findings.mapM (ReportedFinding.ofJson url)
  let patterns ← (← j.need "dangerousPatterns").asList
  let patterns ← patterns.mapM fun p => do (← p.need "type").asText
  return {
    findings, sites, patterns
    unparsed := j.has "parseError"
    incomplete := (j.get "resolverErrors").isTruthy }

end ReportedRecord

def BatchReport.ofResults (results : List Json) : Except Fault BatchReport := do
  let files := results.filter (·.has "records")
  let failed := results.filter (·.has "error")
  let records ← files.mapM fun r => do (← r.need "records").asList
  return .ofRecords failed files (← records.flatten.mapM ReportedRecord.ofJson)

/-! ## The report as a record -/

namespace UniqueFinding

def toJson (u : UniqueFinding) : Json := .object [
  ("fingerprint", .text u.fingerprint), ("type", .text u.sort), ("sink", .text u.sink),
  ("severity", .text u.severity), ("occurrence_count", .ofNat u.count),
  ("example_files", .ofTexts u.exampleFiles)]

end UniqueFinding

namespace Endpoint

def toJson (e : Endpoint) : Json := .object [
  ("method", .text e.method), ("url", .text e.url),
  ("types", .list (e.kinds.map (.ofOption .text))),
  ("params", .list (e.params.map fun p => .ofTable id p.fields)),
  ("sourceFiles", .ofTexts e.sourceFiles)]

end Endpoint

namespace Statistics

def toJson (s : Statistics) : Json := .object [
  ("total_records", .ofNat s.records), ("total_call_sites", .ofNat s.callSites),
  ("total_findings", .ofNat s.findings), ("finding_types", .ofTable .ofNat s.findingTypes),
  ("severity_distribution", .ofTable .ofNat s.severities),
  ("pattern_types", .ofTable .ofNat s.patternTypes), ("parse_errors", .ofNat s.unparsed),
  ("records_with_soft_errors", .ofNat s.incomplete)]

end Statistics

namespace BatchReport

def toJson (r : BatchReport) : Json := .object [
  ("total_files", .ofNat r.files.length), ("failed_files", .list r.failed),
  ("files", .list r.files), ("endpoints", .list (r.endpoints.map Endpoint.toJson)),
  ("statistics", r.statistics.toJson),
  ("unique_findings", .list (r.unique.map UniqueFinding.toJson))]

end BatchReport

end ScriptAudit
