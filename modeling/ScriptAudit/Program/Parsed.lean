import ScriptAudit.Tree.Node

/-!
# Parsed programs

A text may be a script or a module. What a parser makes of it in each mode is given; this module
chooses between the two.
-/

namespace ScriptAudit

inductive SourceMode where
  | script | module
  deriving DecidableEq, Repr

def SourceMode.name : SourceMode → String
  | script => "script"
  | module => "module"

/-- What a tolerant parser makes of a text in one mode: a tree with the errors it recovered from, or
nothing but an error. -/
inductive ParseAttempt where
  | tree (root : Node) (errors : List String)
  | failure (text : String)

structure ParseAttempts where
  script : ParseAttempt
  module : ParseAttempt

structure Parsed where
  root : Node
  mode : SourceMode
  errors : List String

def ParseAttempts.inOrder (a : ParseAttempts) (moduleFirst : Bool) :
    List (SourceMode × ParseAttempt) :=
  if moduleFirst then [(.module, a.module), (.script, a.script)]
  else [(.script, a.script), (.module, a.module)]

def chooseParse (attempts : List (SourceMode × ParseAttempt)) : Option Parsed :=
  let trees := attempts.filterMap fun
    | (mode, .tree root errors) => some ⟨root, mode, errors⟩
    | (_, .failure _) => none
  (trees.find? (·.errors.isEmpty)).orElse fun _ => trees.head?

def firstFailure (attempts : List (SourceMode × ParseAttempt)) : String :=
  (attempts.findSome? fun
    | (_, .failure text) => some text
    | (_, .tree _ _) => none).getD "None"

def parseErrorText (url : String) (cause : String) : String :=
  "Could not parse " ++ url ++ ": " ++ cause

def ParseAttempts.parse (a : ParseAttempts) (url : String) (moduleFirst : Bool) :
    Except String Parsed :=
  let attempts := a.inOrder moduleFirst
  match chooseParse attempts with
  | some p => .ok p
  | none => .error (parseErrorText url (firstFailure attempts))

end ScriptAudit
