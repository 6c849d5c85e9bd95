import ScriptAudit.Program.Parsed
import ScriptAudit.Program.Protobuf
import ScriptAudit.Report.Site
import ScriptAudit.Report.SourceMap
import ScriptAudit.Request.Record
import ScriptAudit.Taint.Analysis

/-!
# Analysis records

Everything that is found out about one script, and its form in reports.
-/

namespace ScriptAudit

/-! ## Parts of a record -/

def Scalar.toJson : Scalar → Json
  | .text s => .text s
  | .number n => .number n
  | .boolean b => .boolean b

def EnumPattern.toJson (e : EnumPattern) : Json :=
  .object (("values", .ofTable .ofInt e.values)
    :: if e.isReverse then [("isReverseMap", .boolean true)] else [])

def FieldPattern.toJson (f : FieldPattern) : Json :=
  .object [("fieldNumber", .ofInt f.number), ("fieldName", .text f.name),
    ("accessorName", .text f.name), ("minified", .boolean true)]

def Constraint.toJson (c : Constraint) : Json :=
  .object [("variable", .text c.variable_), ("values", .list (c.values.map Scalar.toJson)),
    ("sources", .ofTexts c.sources)]

def Json.fieldOf {α : Type} (name : String) (f : α → Json) (a : Option α) :
    List (String × Json) :=
  (a.map fun a => (name, f a)).toList

def Json.fieldOfList (name : String) (xs : List Json) : List (String × Json) :=
  if xs.isEmpty then [] else [(name, .list xs)]

def Param.toTable (p : Param) : SiteParam :=
  ⟨[("name", .text p.name), ("required", .boolean p.required)]
    ++ Json.fieldOf "location" (fun l => .text l.name) p.place
    ++ Json.fieldOf "source" .text p.source
    ++ Json.fieldOf "defaultValue" Scalar.toJson p.fallback
    ++ Json.fieldOf "type" .text p.sort
    ++ Json.fieldOfList "values" (p.values.map .text)
    ++ Json.fieldOfList "validValues" (p.validValues.map Scalar.toJson)
    ++ (if p.spread then [("spread", .boolean true)] else [])⟩

def RequestRecord.toSite (r : RequestRecord) : SiteRecord where
  fields := ⟨[("url", .text r.url), ("method", .text r.method), ("type", .text r.kind.name),
    ("responseType", .ofOption .text r.responseType),
    ("enclosingFunction", .ofOption .text r.enclosingFunction)]⟩
  headers := ⟨r.headers.entries.map fun e => (e.1, .text e.2)⟩
  params := if r.params.isEmpty then .absent else .listed (r.params.map Param.toTable)

def placeJson (line column : Option Int) : Json :=
  .object [("line", .ofOption .ofInt line), ("column", .ofOption .ofInt column)]

def Finding.toJson (f : Finding) : Json :=
  .object [("type", .text f.sort), ("sink", .text f.sink),
    ("location", placeJson (f.line.map Int.ofNat) (f.column.map Int.ofNat)),
    ("taintSource", .ofOption .text f.taintSource), ("severity", .text f.severity.name),
    ("sanitized", .boolean f.sanitized), ("excerpt", .text f.excerpt)]

def Taint.toJson (t : Taint) : Json :=
  .object ([("kind", .text t.kind.name), ("label", .ofOption .text t.label)]
    ++ Json.fieldOf "location" (fun p => placeJson p.1 p.2) t.place)

def SoftError.toJson (e : SoftError) : Json :=
  .object [("label", .text e.label), ("error", .text e.error), ("stack", .ofTexts e.stack)]

/-! ## The record of a script -/

structure AnalysisRecord where
  sourceUrl : String
  enums : List EnumPattern := []
  fieldMaps : List FieldPattern := []
  callSites : List SiteRecord := []
  constraints : List Constraint := []
  findings : List Finding := []
  patterns : List Finding := []
  sourceMapUrl : Option String
  parseError : Option String := none
  errors : List SoftError := []

def AnalysisRecord.toJson (r : AnalysisRecord) : Json :=
  .object ([
    ("sourceUrl", .text r.sourceUrl),
    ("protoEnums", .list (r.enums.map EnumPattern.toJson)),
    ("protoFieldMaps", .list (r.fieldMaps.map FieldPattern.toJson)),
    ("fetchCallSites", .list (r.callSites.map SiteRecord.toJson)),
    ("valueConstraints", .list (r.constraints.map Constraint.toJson)),
    ("securitySinks", .list (r.findings.map Finding.toJson)),
    ("dangerousPatterns", .list (r.patterns.map Finding.toJson)),
    ("sourceMapUrl", .ofOption .text r.sourceMapUrl)]
    ++ Json.fieldOf "parseError" .text r.parseError
    ++ Json.fieldOfList "resolverErrors" (r.errors.map SoftError.toJson))

def analyseProgram : Engine (List RequestRecord × TaintReport) := do
  let records ← allRecords
  return (records, ← analyseTaint)

def recordOfFacts (facts : Facts) (url : String) : Except Fault AnalysisRecord :=
  match analyseProgram.run facts {} with
  | .error fault _ => .error fault
  | .ok (records, taint) session =>
    (SiteRecord.mergeAll (records.map RequestRecord.toSite)).map fun sites => {
      sourceUrl := url
      enums := enumPatterns facts.model.nodes
      fieldMaps := fieldPatterns facts.model.nodes
      callSites := sites
      constraints := (facts.constraints.map Constraints.joined).getD []
      findings := taint.findings
      patterns := taint.patterns
      sourceMapUrl := sourceMapUrl? facts.model.source
      errors := session.errors.kept }

def analyseScript (attempts : ParseAttempts) (source url : String) (moduleFirst : Bool)
    (limits : Limits) : Except Fault AnalysisRecord :=
  match attempts.parse url moduleFirst with
  | .error text =>
    .ok { sourceUrl := url, sourceMapUrl := sourceMapUrl? source, parseError := some text }
  | .ok p => do
    let m ← Model.ofProgram p.root source (p.mode == .module)
    recordOfFacts (Facts.ofModel m limits) url

end ScriptAudit
