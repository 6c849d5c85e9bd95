import ScriptAudit.Number.Numeral
import ScriptAudit.Table
import ScriptAudit.Text.Search

/-!
# Limits

The caps that keep an analysis small: explicit settings, the environment, or defaults. A limit that
is not a positive number is replaced by its default and reported.
-/

namespace ScriptAudit

structure Limits where
  maxValues : Nat := 20
  maxErrors : Nat := 100
  maxDepth : Nat := 12
  maxMutations : Nat := 5
  maxCallArgs : Nat := 5
  maxCallers : Nat := 50
  excerptLines : Nat := 3
  excerptWidth : Nat := 160
  deriving DecidableEq, Repr

namespace Limits

structure Entry where
  setting : String
  variable_ : String
  get : Limits → Nat
  set : Limits → Nat → Limits

def entries : List Entry := [
  ⟨"max_values", "SINKTRACE_MAX_VALUES", maxValues, fun l n => { l with maxValues := n }⟩,
  ⟨"max_errors", "SINKTRACE_MAX_ERRORS", maxErrors, fun l n => { l with maxErrors := n }⟩,
  ⟨"max_depth", "SINKTRACE_MAX_DEPTH", maxDepth, fun l n => { l with maxDepth := n }⟩,
  ⟨"max_mutations", "SINKTRACE_MAX_MUTATIONS", maxMutations,
    fun l n => { l with maxMutations := n }⟩,
  ⟨"max_call_args", "SINKTRACE_MAX_CALL_ARGS", maxCallArgs,
    fun l n => { l with maxCallArgs := n }⟩,
  ⟨"max_callers", "SINKTRACE_MAX_CALLERS", maxCallers, fun l n => { l with maxCallers := n }⟩,
  ⟨"excerpt_lines", "SINKTRACE_EXCERPT_LINES", excerptLines,
    fun l n => { l with excerptLines := n }⟩,
  ⟨"excerpt_width", "SINKTRACE_EXCERPT_WIDTH", excerptWidth,
    fun l n => { l with excerptWidth := n }⟩]

structure Outcome where
  limits : Limits := {}
  refused : List String := []

def requested (setting : Option Int) (raw : Option String) : Except Number.NumeralError (Option Int) :=
  match setting with
  | some n => .ok (some n)
  | none =>
    match raw with
    | some s => if Text.isBlankText s then .ok none else (Number.numeral s).map some
    | none => .ok none

def Outcome.take (o : Outcome) (e : Entry) (asked : Except Number.NumeralError (Option Int)) :
    Outcome :=
  match asked with
  | .ok (some n) =>
    if 0 < n then { o with limits := e.set o.limits n.toNat }
    else { o with refused := o.refused ++ [e.variable_] }
  | .ok none => o
  | .error _ => { o with refused := o.refused ++ [e.variable_] }

def ofSettings (settings : Table String Int) (environment : Table String String) : Outcome :=
  entries.foldl (fun o e =>
    o.take e (requested (settings.get? e.setting) (environment.get? e.variable_))) {}

def warning (name : String) : String :=
  name ++ " must be a positive integer - using the default"

def toList (l : Limits) : List (String × Nat) :=
  entries.map fun e => (e.setting, e.get l)

def environmentLine? (line : List Char) : Option (String × String) :=
  match Text.cut? ['='] line with
  | some (name, value) =>
    let name := Text.trim (String.ofList name)
    if name.isEmpty || Text.startsWith name "#" then none
    else some (name, Text.trim (String.ofList value))
  | none => none

def withFile (environment : Table String String) (text : String) : Table String String :=
  let lines := (Text.split text "\n").filterMap fun l => environmentLine? l.toList
  (Table.ofList lines).entries.foldl (fun t e => t.insertNew e.1 e.2) environment

end Limits

end ScriptAudit
