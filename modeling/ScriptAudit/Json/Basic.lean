import ScriptAudit.Number.Basic
import ScriptAudit.Table

/-!
# JSON values

The values that reports are made of. The fields of an object keep the order in which they were
entered.
-/

namespace ScriptAudit

inductive Json where
  | null
  | boolean (b : Bool)
  | number (n : Number)
  | text (s : String)
  | list (elements : List Json)
  | object (fields : List (String × Json))

namespace Json

instance : Inhabited Json := ⟨null⟩

def ofInt (n : Int) : Json := number (.whole n)

def ofNat (n : Nat) : Json := ofInt n

def ofOption {α : Type} (f : α → Json) : Option α → Json
  | some a => f a
  | none => null

def ofTexts (ss : List String) : Json := list (ss.map text)

def ofTable {α : Type} (f : α → Json) (t : Table String α) : Json :=
  object (t.entries.map fun e => (e.1, f e.2))

def field? (j : Json) (name : String) : Option Json :=
  match j with
  | object fields => fields.lookup name
  | _ => none

def table? : Json → Option (Table String Json)
  | object fields => some (Table.ofList fields)
  | _ => none

def text? : Json → Option String
  | text s => some s
  | _ => none

def elements? : Json → Option (List Json)
  | list xs => some xs
  | _ => none

def int? : Json → Option Int
  | number (.whole n) => some n
  | _ => none

def isTruthy : Json → Bool
  | null => false
  | boolean b => b
  | number n => n != .whole 0
  | text s => !s.isEmpty
  | list xs => !xs.isEmpty
  | object fields => !fields.isEmpty

def numeric? : Json → Option Number
  | number n => some n
  | boolean b => some (.whole (if b then 1 else 0))
  | _ => none

mutual

def same : Json → Json → Bool
  | null, j => match j with
    | null => true
    | _ => false
  | boolean b, j => j.numeric? == some (.whole (if b then 1 else 0))
  | number n, j => j.numeric? == some n
  | text s, j => match j with
    | text t => s == t
    | _ => false
  | list xs, j => match j with
    | list ys => sameLists xs ys
    | _ => false
  | object fields, j => match j with
    | object others => fields.length == others.length && sameFields fields others
    | _ => false

def sameLists : List Json → List Json → Bool
  | [], ys => ys.isEmpty
  | x :: xs, ys => match ys with
    | [] => false
    | y :: ys => same x y && sameLists xs ys

def sameFields : List (String × Json) → List (String × Json) → Bool
  | [], _ => true
  | (k, x) :: rest, others =>
    (match others.lookup k with
    | some y => same x y
    | none => false) && sameFields rest others

end

instance : BEq Json := ⟨same⟩

end Json

end ScriptAudit
