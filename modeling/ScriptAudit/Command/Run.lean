import ScriptAudit.Command.Arguments
import ScriptAudit.Files.Inspect
import ScriptAudit.Json.Print
import ScriptAudit.Report.Summary

/-!
# Running the command

What a command line prints and writes, and the code it ends with, for the files it can see and the
limits its environment sets.
-/

namespace ScriptAudit.Command

structure Outcome where
  exit : Nat
  out : String := ""
  err : String := ""
  files : FileTree

structure Surroundings where
  files : FileTree
  environment : Table String String := Table.empty
  attempts : String → ParseAttempts

def versionText : String := "sinktrace 0.3.0\n"

def helpText : String := textOfLines [
  "usage: sinktrace [-h] [--version] [analyze ...]",
  "",
  "Trace network requests and DOM sinks in client-side JavaScript bundles",
  "",
  "analyze path [-o OUTPUT] [-v] [--module] [-j JOBS] [--show-errors]",
  "                 Analyze local JavaScript/HTML files",
  "",
  "  path           Path to JavaScript/HTML file or directory to analyze",
  "  -o, --output   Output file for JSON results (default: print to stdout)",
  "  -v, --verbose  Enable verbose output and debug logging",
  "  --module       Parse JavaScript files as ES modules first",
  "  -j, --jobs     Analyze files in N worker processes and print a merged report (default: 1)",
  "  --show-errors  List soft resolver errors in printed results"]

structure Findings where
  log : List String
  record : Json
  text : Except Fault String

def Request.findings (r : Request) (i : Inspector) (t : FileTree) (p : SourcePath) :
    Except String Findings :=
  if 1 < r.jobs then
    let found := i.batch t r.jobs.toNat [p]
    match found.result with
    | .ok report => .ok ⟨found.log, report.toJson, report.summary⟩
    | .error fault => .error fault.message
  else match i.path? t p with
    | some found =>
      let record := found.result.toJson
      .ok ⟨found.log, record, listing record r.showErrors⟩
    | none => .error (Inspector.invalidPath p)

def Request.logText (r : Request) (log : List String) : String :=
  if r.verbose then textOfLines log else ""

def savedLine (path : String) : String :=
  "Results saved to " ++ path

def errorText (message : String) : String :=
  "Error: " ++ message ++ "\n"

def Request.deliver (r : Request) (t : FileTree) (warnings : String) (f : Findings) : Outcome :=
  let log := r.logText f.log
  match r.output.filter (!·.isEmpty) with
  | none =>
    match f.text with
    | .ok text => ⟨0, log ++ text, warnings, t⟩
    | .error fault => ⟨1, log, warnings ++ errorText fault.message, t⟩
  | some output =>
    let p := SourcePath.ofText output
    match t.write p (f.record.pretty 0) with
    | .ok written =>
      ⟨0, log ++ r.logText [savedLine p.text] ++ savedLine output ++ "\n", warnings, written⟩
    | .error e => ⟨1, log, warnings ++ errorText e.message, t⟩

def Request.run (r : Request) (s : Surroundings) : Outcome :=
  let settings := Limits.ofSettings Table.empty s.environment
  let warnings := textOfLines (settings.refused.map fun v => "Warning: " ++ Limits.warning v)
  let p := SourcePath.ofText r.path
  if !s.files.holds p then
    ⟨1, "", warnings ++ errorText ("Path '" ++ r.path ++ "' does not exist"), s.files⟩
  else
    let i : Inspector := ⟨s.attempts, r.asModule, settings.limits⟩
    match r.findings i s.files p with
    | .ok f => r.deliver s.files warnings f
    | .error message => ⟨1, "", warnings ++ errorText message, s.files⟩

def run (s : Surroundings) (words : List String) : Outcome :=
  match Invocation.ofWords words with
  | .analyse r => r.run s
  | .help => ⟨0, helpText, "", s.files⟩
  | .version => ⟨0, versionText, "", s.files⟩
  | .idle => ⟨1, helpText, "", s.files⟩
  | .misuse => ⟨2, "", helpText, s.files⟩

end ScriptAudit.Command
