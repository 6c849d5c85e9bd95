import ScriptAudit.Command.Run
import ScriptAudit.Json.Read
import ScriptAudit.Tree.Catalog

/-!
# The program

Reads what a command line needs, runs the command, and carries out what it prints and writes. Syntax
trees come from a catalog, a JSON file that the variable `SINKTRACE_TREES` names.
-/

namespace ScriptAudit.Main

def bytesOf (data : ByteArray) : List Nat :=
  data.toList.map (·.toNat)

def dataOf (bytes : List Nat) : ByteArray :=
  ⟨(bytes.map (·.toUInt8)).toArray⟩

def readText? (path : String) : IO (Option String) := do
  try
    return some (FileTree.textOfBytes (bytesOf (← IO.FS.readBinFile path)))
  catch _ => return none

partial def survey (deep : Bool) (t : FileTree) (parts : List String) : IO FileTree := do
  let place := (← IO.currentDir) / (SourcePath.mk parts).text
  if ← place.isDir then
    let t := { t with folders := addNew t.folders parts }
    if deep then
      (← place.readDir).foldlM (fun t entry => survey deep t (parts ++ [entry.fileName])) t
    else return t
  else if ← place.pathExists then
    return { t with files := t.files.insert parts (bytesOf (← IO.FS.readBinFile place)) }
  else return t

def surveyPath (deep : Bool) (t : FileTree) (p : SourcePath) : IO FileTree := do
  let mut here := []
  let mut tree := t
  for part in p.parts do
    here := FileTree.stepTo here part
    tree ← survey false tree here
  survey deep tree here

def surveyRequest (words : List String) : IO FileTree := do
  match Command.Invocation.ofWords words with
  | .analyse r =>
    let t ← surveyPath true {} (SourcePath.ofText r.path)
    match r.output with
    | some output => surveyPath false t (SourcePath.ofText output)
    | none => return t
  | _ => return {}

def environment : IO (Table String String) := do
  let mut found : Table String String := Table.empty
  for e in Limits.entries do
    if let some value ← IO.getEnv e.variable_ then found := found.insert e.variable_ value
  match ← readText? ((← IO.appDir) / ".env").toString with
  | some text => return Limits.withFile found text
  | none => return found

def catalog : IO Catalog := do
  match ← IO.getEnv "SINKTRACE_TREES" with
  | some path => return Catalog.ofJson (((← readText? path).bind Json.read?).getD .null)
  | none => return Catalog.ofJson .null

def save (before after : FileTree) : IO Unit := do
  for (parts, bytes) in after.files.entries do
    if before.files.get? parts != some bytes then
      IO.FS.writeBinFile (SourcePath.mk parts).text (dataOf bytes)

end ScriptAudit.Main

open ScriptAudit in
def main (words : List String) : IO UInt32 := do
  let files ← Main.surveyRequest words
  let trees ← Main.catalog
  let outcome := Command.run ⟨files, ← Main.environment, trees.attemptsFor⟩ words
  Main.save files outcome.files
  IO.print outcome.out
  IO.eprint outcome.err
  return outcome.exit.toUInt32
