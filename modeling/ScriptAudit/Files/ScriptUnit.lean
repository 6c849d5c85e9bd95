import ScriptAudit.Distinct
import ScriptAudit.Files.FileTree
import ScriptAudit.Files.Markup

/-!
# Script units

The scripts in a file: a script file is one, and a page has one for each of its inline scripts.
-/

namespace ScriptAudit

structure ScriptUnit where
  index : Nat
  code : String
  line : Option Nat
  isModule : Bool
  deriving DecidableEq, Repr

inductive FileKind where
  | script | page
  deriving DecidableEq, Repr

def suffixKinds : List (String × FileKind) :=
  [(".js", .script), (".jsx", .script), (".mjs", .script), (".cjs", .script), (".html", .page),
    (".htm", .page)]

namespace SourcePath

def kind? (p : SourcePath) : Option FileKind :=
  suffixKinds.lookup p.suffix

end SourcePath

def inlineScripts (html : String) : List ScriptUnit :=
  ((Markup.scripts html).filter ScriptElement.isInline).zipIdx.map fun (e, i) =>
    ⟨i, e.content, none, e.language == "module"⟩

def FileKind.units (kind : FileKind) (p : SourcePath) (moduleFirst : Bool) (text : String) :
    List ScriptUnit :=
  match kind with
  | page => inlineScripts text
  | script => [⟨0, text, some 1, moduleFirst || p.suffix == ".mjs"⟩]

def FileTree.units (t : FileTree) (p : SourcePath) (moduleFirst : Bool) :
    Except FileError (List ScriptUnit) :=
  match p.kind? with
  | none => .ok []
  | some kind => (t.read p).map (kind.units p moduleFirst)

/-! ## Files below a folder -/

def hasScriptEnding (name : String) : Bool :=
  suffixKinds.any fun (suffix, _) => (Text.dropLeading? suffix.toList.reverse name.toList.reverse).isSome

def FileTree.scriptFiles (t : FileTree) (folder : SourcePath) : List SourcePath :=
  let found := (t.filesBelow folder).filter fun parts => (parts.getLast?).any hasScriptEnding
  ((distinct found).mergeSort SourcePath.partsLe).map folder.below

end ScriptAudit
