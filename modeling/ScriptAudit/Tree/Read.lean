import ScriptAudit.Json.Basic
import ScriptAudit.Program.Parsed

/-!
# The tree format

A tree is a list of JSON rows, and row `i` describes node `i`: its type, the two ends of its range,
its line and column, and then names of fields with their values in turn. A field whose name starts
with `@` holds children by number. Row zero is the program.
-/

namespace ScriptAudit

namespace Head

def scalar? : Json → Option Scalar
  | .text s => some (.text s)
  | .boolean b => some (.boolean b)
  | .number n => some (.number n)
  | .object [("float", .text "inf")] => some (.number (.infinite false))
  | .object [("float", .text "-inf")] => some (.number (.infinite true))
  | .object [("float", .text _)] => some (.number .undefined)
  | _ => none

def withField (h : Head) (name : String) (value : Json) : Head :=
  match name with
  | "name" => { h with name := value.text? }
  | "operator" => { h with operator := value.text?.getD "" }
  | "kind" => { h with sort := value.text?.getD "" }
  | "value" => { h with literal := scalar? value }
  | "cooked" => { h with cooked := value.text? }
  | "raw" => { h with raw := value.text? }
  | "computed" => { h with computed := value.isTruthy }
  | "static" => { h with isStatic := value.isTruthy }
  | "shorthand" => { h with shorthand := value.isTruthy }
  | "regex" => { h with regex := value.isTruthy }
  | _ => h

def pair? (a b : Json) : Option (Nat × Nat) :=
  match a.int?, b.int? with
  | some x, some y => some (x.toNat, y.toNat)
  | _, _ => none

end Head

structure TreeRow where
  head : Head
  children : List (Field × Option Nat)

namespace TreeRow

def childNumber (j : Json) : Option Nat :=
  j.int?.map Int.toNat

def childrenAt (f : Field) : Json → List (Field × Option Nat)
  | .list xs => xs.map fun x => (f, childNumber x)
  | j => match childNumber j with
    | some i => [(f, some i)]
    | none => []

def withFields (r : TreeRow) : List Json → TreeRow
  | .text name :: value :: rest =>
    let r' := match name.toList with
      | '@' :: fieldName =>
        match Field.ofName? (String.ofList fieldName) with
        | some f => { r with children := r.children ++ childrenAt f value }
        | none => r
      | _ => { r with head := r.head.withField name value }
    r'.withFields rest
  | _ => r

def ofJson? (number : Nat) : Json → Option TreeRow
  | .list (.text kind :: start :: stop :: line :: column :: fields) =>
    let head : Head := {
      ident := .listed number
      kind := Kind.ofName kind
      span := Head.pair? start stop
      start := Head.pair? line column }
    some (TreeRow.withFields ⟨head, []⟩ fields)
  | _ => none

end TreeRow

def treeFrom (rows : Array TreeRow) : Nat → Nat → Option Node
  | 0, _ => none
  | fuel + 1, i =>
    rows[i]?.map fun r =>
      .mk r.head (r.children.map fun (f, c) => (f, c.bind (treeFrom rows fuel)))

def Node.ofRows? (rows : List Json) : Option Node :=
  ((rows.zipIdx).mapM fun (j, i) => TreeRow.ofJson? i j).bind fun rs =>
    treeFrom rs.toArray rs.length 0

def ParseAttempt.ofJson? (j : Json) : Option ParseAttempt :=
  match j.field? "error" with
  | some (.text cause) => some (.failure cause)
  | _ =>
    match (j.field? "nodes").bind Json.elements? with
    | some rows =>
      let errors := ((j.field? "errors").bind Json.elements?).getD []
      (Node.ofRows? rows).map (ParseAttempt.tree · (errors.filterMap Json.text?))
    | none => none

end ScriptAudit
