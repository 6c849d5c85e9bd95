import ScriptAudit.Report.Batch
import ScriptAudit.Report.Listing

/-!
# Summaries

A batch report as text: the counts, the endpoints, the most frequent findings, and the files that
failed.
-/

namespace ScriptAudit.BatchReport

def rule : String :=
  String.ofList (List.replicate 80 '=')

def maxShownFindings : Nat := 10

def severityLines (t : Table String Nat) : List String :=
  if t.isEmpty then []
  else
    let sorted := t.entries.mergeSort fun a b => severityRank b.1 ≤ severityRank a.1
    "\nSeverity distribution:"
      :: sorted.map fun (severity, n) => "  " ++ Text.upper severity ++ ": " ++ toString n

def endpointLine (e : Endpoint) : String :=
  "  " ++ Text.padEnd 6 e.method ++ " " ++ e.url ++ "  (" ++ toString e.sourceFiles.length
    ++ " file(s))"

def endpointLines (es : List Endpoint) : List String :=
  if es.isEmpty then [] else "\nEndpoints:" :: es.map endpointLine

def findingLine (u : UniqueFinding) (i : Nat) : String :=
  toString (i + 1) ++ ". " ++ u.sort ++ " via " ++ u.sink ++ " [" ++ Text.upper u.severity ++ "] x"
    ++ toString u.count

def findingLines (us : List UniqueFinding) : List String :=
  if us.isEmpty then []
  else "\nTop unique findings:"
    :: (us.take maxShownFindings).zipIdx.map fun (u, i) => findingLine u i

def failureLine (result : Json) : Except Fault String := do
  return "[-] " ++ (← result.need "file").shown ++ ": " ++ (← result.need "error").shown

def summary (r : BatchReport) : Except Fault String := do
  let failures ← r.failed.mapM failureLine
  return textOfLines (
    ["\n" ++ rule, "Batch Analysis Summary", rule,
      "\nFiles analyzed: " ++ toString r.files.length,
      "Failed files: " ++ toString r.failed.length,
      "Endpoints: " ++ toString r.endpoints.length,
      "Security findings: " ++ toString r.statistics.findings]
    ++ severityLines r.statistics.severities ++ endpointLines r.endpoints
    ++ findingLines r.unique ++ failures ++ ["\n" ++ rule])

end ScriptAudit.BatchReport
