import ScriptAudit.Fault
import ScriptAudit.Json.Basic
import ScriptAudit.Text.Case

/-!
# Reading records

Access to the fields of records that come from outside and may not be as they should.
-/

namespace ScriptAudit.Json

def asTable : Json → Except Fault (Table String Json)
  | object fields => .ok (Table.ofList fields)
  | _ => .error .wrongType

def asList : Json → Except Fault (List Json)
  | list xs => .ok xs
  | _ => .error .wrongType

def asText : Json → Except Fault String
  | text s => .ok s
  | _ => .error .wrongType

def asCapitals : Json → Except Fault String
  | text s => .ok (Text.upper s)
  | _ => .error .notText

def need (j : Json) (name : String) : Except Fault Json :=
  match j with
  | object fields =>
    match fields.lookup name with
    | some x => .ok x
    | none => .error (.missingField name)
  | _ => .error .wrongType

def get (j : Json) (name : String) : Json :=
  (j.field? name).getD null

def has (j : Json) (name : String) : Bool :=
  (j.field? name).isSome

def listAt (j : Json) (name : String) : Except Fault (List Json) :=
  match j.field? name with
  | some x => x.asList
  | none => .ok []

def orElse (j fallback : Json) : Json :=
  if j.isTruthy then j else fallback

end ScriptAudit.Json
