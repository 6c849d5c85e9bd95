import ScriptAudit.Json.Access
import ScriptAudit.Json.Shown

/-!
# Listings

The results for a file or a directory as lines of text. Results come as records that may lack
fields; a field that a line needs has to be there.
-/

namespace ScriptAudit

abbrev Lines := Except Fault (List String)

namespace Listing

def paramLine (param : Json) : Except Fault String := do
  let values ← if (param.get "values").isTruthy then
      pure (" = " ++ (← param.need "values").shown)
    else pure ""
  return "          " ++ ((param.field? "location").getD (.text "body")).shown ++ ":"
    ++ (param.get "name").shown ++ values

def siteLines (site : Json) : Lines := do
  let method ← ((site.field? "method").getD (.text "GET")).shownAtWidth 6
  let params ← (← site.listAt "params").mapM paramLine
  return ("   " ++ method ++ " " ++ (site.get "url").shown ++ " (" ++ (site.get "type").shown ++ ")")
    :: params

def findingStart (finding : Json) : Except Fault String := do
  let severity ← (← finding.need "severity").asCapitals
  let line ← (← finding.need "location").need "line"
  return "   [" ++ severity ++ "] Line " ++ line.shown ++ ": "

def findingLines (excerpts : Bool) (finding : Json) : Lines := do
  let flag := if (← finding.need "sanitized").isTruthy then " (sanitized)" else ""
  let start ← findingStart finding
  let sort := (← finding.need "type").shown
  let sink := (← finding.need "sink").shown
  let source := (← finding.need "taintSource").shown
  let line := start ++ sort ++ " via " ++ sink ++ " from " ++ source ++ flag
  if excerpts then
    let excerpt ← finding.need "excerpt"
    if excerpt.isTruthy then return [line, "     Code:\n" ++ excerpt.shown]
  return [line]

def patternLine (pattern : Json) : Except Fault String := do
  let start ← findingStart pattern
  return start ++ (← pattern.need "type").shown

def softErrorLine (error : Json) : Except Fault String := do
  return "   [SOFT] " ++ (← error.need "label").shown ++ ": " ++ (← error.need "error").shown

def recordLines (excerpts showErrors : Bool) (record : Json) : Lines := do
  let unparsed := match record.field? "parseError" with
    | some text => ["   [PARSE] " ++ text.shown]
    | none => []
  let sites ← (← (← record.need "fetchCallSites").asList).mapM siteLines
  let findings ← (← (← record.need "securitySinks").asList).mapM (findingLines excerpts)
  let patterns ← (← (← record.need "dangerousPatterns").asList).mapM patternLine
  let url := record.get "sourceMapUrl"
  let map := if url.isTruthy then ["   Source map: " ++ url.shown] else []
  let errors ← if showErrors then (← record.listAt "resolverErrors").mapM softErrorLine else pure []
  return unparsed ++ sites.flatten ++ findings.flatten ++ patterns ++ map ++ errors

def heading (subject : String) : String :=
  "\n=== Analysis Results for " ++ subject ++ " ===\n"

def fileLines (alone showErrors : Bool) (result : Json) : Lines := do
  let file := ((result.field? "file").getD (.text "Unknown")).shown
  let start := if alone then [heading file] else []
  if (result.get "skipped").isTruthy then
    if alone then return start ++ ["Skipped: " ++ (← result.need "reason").shown]
    return start
  match result.field? "error" with
  | some error => return start ++ ["[-] " ++ file ++ ": Error - " ++ error.shown]
  | none =>
    let sinks := (result.field? "sink_count").getD (.ofNat 0)
    let sites := (result.field? "call_site_count").getD (.ofNat 0)
    let status := if sinks.isTruthy then "[!] " else "[+] "
    let count := status ++ file ++ ": " ++ sites.shown ++ " call site(s), " ++ sinks.shown ++ " sink(s)"
    let records ← (← result.listAt "records").mapM (recordLines alone showErrors)
    return start ++ count :: records.flatten

def directoryLines (showErrors : Bool) (results directory : Json) : Lines := do
  let files ← (← results.need "files").asList
  let sites := (← results.need "total_call_sites").shown
  let sinks := (← results.need "total_sinks").shown
  let listed ← files.mapM (fileLines false showErrors)
  return [heading directory.shown, "Files analyzed: " ++ toString files.length,
    "Network call sites: " ++ sites, "Security sinks: " ++ sinks ++ "\n"] ++ listed.flatten

end Listing

def textOfLines (lines : List String) : String :=
  String.join (lines.map (· ++ "\n"))

def listing (results : Json) (showErrors : Bool) : Except Fault String :=
  match results.field? "directory" with
  | some directory => (Listing.directoryLines showErrors results directory).map textOfLines
  | none => (Listing.fileLines true showErrors results).map textOfLines

end ScriptAudit
