import ScriptAudit.Fault
import ScriptAudit.Json.Basic
import ScriptAudit.Text.Pad

/-!
# Values in printed lines

How a value appears in a line of printed text. A text stands for itself, and between quotation marks
inside a list or an object.
-/

namespace ScriptAudit.Json

mutual

def shownInside : Json → String
  | null => "None"
  | boolean b => if b then "True" else "False"
  | number n => n.text
  | text s => Text.quoted s
  | list xs => "[" ++ ", ".intercalate (shownElements xs) ++ "]"
  | object fields => "\x7b" ++ ", ".intercalate (shownFields fields) ++ "\x7d"

def shownElements : List Json → List String
  | [] => []
  | x :: xs => shownInside x :: shownElements xs

def shownFields : List (String × Json) → List String
  | [] => []
  | (k, x) :: rest => (Text.quoted k ++ ": " ++ shownInside x) :: shownFields rest

end

def shown : Json → String
  | text s => s
  | j => j.shownInside

def shownAtWidth (width : Nat) : Json → Except Fault String
  | text s => .ok (Text.padEnd width s)
  | number n => .ok (Text.padStart width n.text)
  | boolean b => .ok (Text.padStart width (if b then "1" else "0"))
  | _ => .error .wrongType

end ScriptAudit.Json
