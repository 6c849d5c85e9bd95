import ScriptAudit.Text.Case
import ScriptAudit.Text.Search

/-!
# Paths

The parts of a path, without empty parts and without those that stand for the directory they are in.
A path that starts at the root has the root as its first part.
-/

namespace ScriptAudit

structure SourcePath where
  parts : List String
  deriving DecidableEq, Repr

namespace SourcePath

def rootOf (cs : List Char) : List String :=
  match (cs.takeWhile (· == '/')).length with
  | 0 => []
  | 2 => ["//"]
  | _ => ["/"]

def ofText (s : String) : SourcePath :=
  ⟨rootOf s.toList ++ (Text.split s "/").filter fun part => part != "" && part != "."⟩

def isRoot (part : String) : Bool :=
  part == "/" || part == "//"

def text (p : SourcePath) : String :=
  match p.parts with
  | [] => "."
  | root :: rest => if isRoot root then root ++ "/".intercalate rest else "/".intercalate p.parts

def name (p : SourcePath) : String :=
  match p.parts.getLast? with
  | some part => if isRoot part then "" else part
  | none => ""

def suffixOf (name : String) : String :=
  let tail := (name.toList.reverse.takeWhile (· != '.')).reverse
  let start := (name.toList.take (name.length - tail.length)).dropLast
  if tail.length == name.length || tail.isEmpty || start.isEmpty then ""
  else String.ofList ('.' :: tail)

def suffix (p : SourcePath) : String :=
  Text.lower (suffixOf p.name)

def below (p : SourcePath) (parts : List String) : SourcePath :=
  ⟨p.parts ++ parts⟩

def partsLe : List String → List String → Bool
  | [], _ => true
  | _ :: _, [] => false
  | a :: as, b :: bs => a < b || (a == b && partsLe as bs)

end SourcePath

end ScriptAudit
