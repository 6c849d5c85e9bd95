import ScriptAudit.Files.Path
import ScriptAudit.Table
import ScriptAudit.Text.Lines
import ScriptAudit.Text.Quoted
import ScriptAudit.Text.Utf8

/-!
# File trees

The files that an analysis can see, with their bytes, each under the parts of its path. An empty
folder has to be listed.
-/

namespace ScriptAudit

structure FileTree where
  files : Table (List String) (List Nat) := Table.empty
  folders : List (List String) := []

inductive FileError where
  | notFound (path : SourcePath)
  | missing (path : SourcePath)
  | isFolder (path : SourcePath)
  | notFolder (path : SourcePath)
  deriving DecidableEq, Repr

namespace FileTree

def partsBelow? : List String → List String → Option (List String)
  | [], parts => some parts
  | _ :: _, [] => none
  | a :: as, b :: bs => if a == b then partsBelow? as bs else none

def isBelow (folder parts : List String) : Bool :=
  match partsBelow? folder parts with
  | some rest => !rest.isEmpty
  | none => false

def hasFile (t : FileTree) (parts : List String) : Bool :=
  t.files.contains parts

def hasFolder (t : FileTree) (parts : List String) : Bool :=
  parts.isEmpty || t.folders.contains parts || t.files.keys.any (isBelow parts)

def stepTo (here : List String) (part : String) : List String :=
  match part == "..", here.getLast? with
  | true, some last =>
    if SourcePath.isRoot last then here
    else if last == ".." then here ++ [part]
    else here.dropLast
  | _, _ => here ++ [part]

def follow (t : FileTree) (here : List String) : List String → Option (List String)
  | [] => some here
  | part :: rest => if t.hasFolder here then t.follow (stepTo here part) rest else none

def locate? (t : FileTree) (p : SourcePath) : Option (List String) :=
  match p.parts with
  | [] => some []
  | part :: rest => if SourcePath.isRoot part then t.follow [part] rest else t.follow [] (part :: rest)

def isFile (t : FileTree) (p : SourcePath) : Bool :=
  (t.locate? p).any t.hasFile

def isFolder (t : FileTree) (p : SourcePath) : Bool :=
  (t.locate? p).any t.hasFolder

def holds (t : FileTree) (p : SourcePath) : Bool :=
  t.isFile p || t.isFolder p

def filesBelow (t : FileTree) (p : SourcePath) : List (List String) :=
  match t.locate? p with
  | some folder => (t.files.keys.filter (isBelow folder)).filterMap (partsBelow? folder)
  | none => []

def textOfBytes (bytes : List Nat) : String :=
  String.ofList (Text.unifyNewlines (Text.decodeUtf8 bytes))

def read (t : FileTree) (p : SourcePath) : Except FileError String :=
  match t.locate? p with
  | none => .error (.notFound p)
  | some parts =>
    match t.files.get? parts with
    | some bytes => .ok (textOfBytes bytes)
    | none => .error (if t.hasFolder parts then .isFolder p else .notFound p)

def blockage (t : FileTree) (p : SourcePath) : FileError :=
  if (List.range p.parts.length).any fun n => t.hasFile (p.parts.take n) then .notFolder p
  else .missing p

def write (t : FileTree) (p : SourcePath) (text : String) : Except FileError FileTree :=
  if t.isFolder p then .error (.isFolder p)
  else match t.locate? ⟨p.parts.dropLast⟩ with
    | some folder =>
      if t.hasFolder folder then
        .ok { t with files := t.files.insert (folder ++ [p.name]) (Text.utf8BytesOf text) }
      else .error (t.blockage p)
    | none => .error (t.blockage p)

end FileTree

def FileError.message : FileError → String
  | notFound p => "File not found: " ++ p.text
  | missing p => "[Errno 2] No such file or directory: " ++ Text.quoted p.text
  | isFolder p => "[Errno 21] Is a directory: " ++ Text.quoted p.text
  | notFolder p => "[Errno 20] Not a directory: " ++ Text.quoted p.text

end ScriptAudit
