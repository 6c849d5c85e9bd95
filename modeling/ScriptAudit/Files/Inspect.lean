import ScriptAudit.Files.ScriptUnit
import ScriptAudit.Report.Batch
import ScriptAudit.Report.Record

/-!
# Inspecting files

Analyses the scripts of files and of all files below folders. A file that cannot be analysed has a
result that says so. Every inspection also has a log.
-/

namespace ScriptAudit

structure Inspector where
  attempts : String → ParseAttempts
  moduleFirst : Bool := false
  limits : Limits := {}

structure Logged (α : Type) where
  result : α
  log : List String

/-! ## Files -/

structure UnitRecord where
  record : AnalysisRecord
  inline_ : Option (Nat × Option Nat)

inductive FileOutcome where
  | skipped
  | failed (message : String)
  | analysed (records : List UnitRecord)

structure FileResult where
  path : SourcePath
  outcome : FileOutcome

namespace Inspector

def unitUrl (p : SourcePath) (kind : FileKind) (u : ScriptUnit) : String :=
  match kind with
  | .page => p.text ++ "#script-" ++ toString u.index
  | .script => p.text

def recordLog (r : AnalysisRecord) : List String :=
  match r.parseError with
  | some _ => []
  | none =>
    [r.sourceUrl ++ ": " ++ toString r.callSites.length ++ " call sites, "
      ++ toString r.findings.length ++ " sinks, " ++ toString r.patterns.length ++ " patterns"]

def unit (i : Inspector) (p : SourcePath) (kind : FileKind) (u : ScriptUnit) :
    Logged (Except Fault UnitRecord) :=
  let url := unitUrl p kind u
  let start := "Parsing code from " ++ url
  match analyseScript (i.attempts u.code) u.code url u.isModule i.limits with
  | .error fault => ⟨.error fault, [start]⟩
  | .ok record =>
    let place := match kind with
      | .page => some (u.index, u.line)
      | .script => none
    ⟨.ok ⟨record, place⟩, start :: recordLog record⟩

def units (i : Inspector) (p : SourcePath) (kind : FileKind) :
    List ScriptUnit → Logged (Except Fault (List UnitRecord))
  | [] => ⟨.ok [], []⟩
  | u :: rest =>
    let first := i.unit p kind u
    match first.result with
    | .error fault => ⟨.error fault, first.log⟩
    | .ok record =>
      let others := i.units p kind rest
      ⟨others.result.map (record :: ·), first.log ++ others.log⟩

def file (i : Inspector) (t : FileTree) (p : SourcePath) : Logged FileResult :=
  let start := "Analyzing file: " ++ p.text
  match p.kind? with
  | none => ⟨⟨p, .skipped⟩, [start, "Skipping unsupported file: " ++ p.text]⟩
  | some kind =>
    match t.read p with
    | .error e => ⟨⟨p, .failed e.message⟩, [start]⟩
    | .ok text =>
      let log := [start, "Reading file: " ++ p.text]
      let found := i.units p kind (kind.units p i.moduleFirst text)
      match found.result with
      | .error fault => ⟨⟨p, .failed fault.message⟩, log ++ found.log⟩
      | .ok records => ⟨⟨p, .analysed records⟩, log ++ found.log⟩

def files (i : Inspector) (t : FileTree) (ps : List SourcePath) : Logged (List FileResult) :=
  let found := ps.map (i.file t)
  ⟨found.map (·.result), found.flatMap (·.log)⟩

end Inspector

/-! ## Results as records -/

def UnitRecord.toJson (u : UnitRecord) : Json :=
  match u.record.toJson, u.inline_ with
  | .object fields, some (index, line) =>
    .object (fields ++ [("inlineScript",
      .object [("index", .ofNat index), ("line", .ofOption .ofNat line)])])
  | j, _ => j

namespace FileResult

def callSiteCount (r : FileResult) : Nat :=
  match r.outcome with
  | .analysed records => total (records.map (·.record.callSites.length))
  | _ => 0

def sinkCount (r : FileResult) : Nat :=
  match r.outcome with
  | .analysed records => total (records.map (·.record.findings.length))
  | _ => 0

def toJson (r : FileResult) : Json :=
  .object (("file", .text r.path.text) :: match r.outcome with
    | .skipped => [("skipped", .boolean true), ("reason", .text "Not a JavaScript or HTML file")]
    | .failed message => [("error", .text message)]
    | .analysed records => [
      ("records", .list (records.map UnitRecord.toJson)),
      ("call_site_count", .ofNat r.callSiteCount),
      ("sink_count", .ofNat r.sinkCount)])

end FileResult

/-! ## Paths and batches -/

inductive PathResult where
  | file (result : FileResult)
  | folder (path : SourcePath) (files : List FileResult)

namespace PathResult

def toJson : PathResult → Json
  | file r => r.toJson
  | folder p rs => .object [
    ("directory", .text p.text), ("files", .list (rs.map FileResult.toJson)),
    ("total_call_sites", .ofNat (total (rs.map FileResult.callSiteCount))),
    ("total_sinks", .ofNat (total (rs.map FileResult.sinkCount)))]

end PathResult

namespace Inspector

def path? (i : Inspector) (t : FileTree) (p : SourcePath) : Option (Logged PathResult) :=
  if t.isFile p then
    let found := i.file t p
    some ⟨.file found.result, found.log⟩
  else if t.isFolder p then
    let found := i.files t (t.scriptFiles p)
    some ⟨.folder p found.result, ("Analyzing directory: " ++ p.text) :: found.log⟩
  else none

def invalidPath (p : SourcePath) : String :=
  "Invalid path: " ++ p.text

def batchFiles (t : FileTree) (ps : List SourcePath) : List SourcePath :=
  ps.flatMap fun p =>
    if t.isFolder p then t.scriptFiles p else if t.isFile p then [p] else []

def batch (i : Inspector) (t : FileTree) (workers : Nat) (ps : List SourcePath) :
    Logged (Except Fault BatchReport) :=
  let paths := batchFiles t ps
  let found := i.files t paths
  let start := "Analyzing " ++ toString paths.length ++ " files with " ++ toString workers ++ " job(s)"
  let log := if 1 < workers && 1 < paths.length then [] else found.log
  ⟨BatchReport.ofResults (found.result.map FileResult.toJson), start :: log⟩

end Inspector

end ScriptAudit
