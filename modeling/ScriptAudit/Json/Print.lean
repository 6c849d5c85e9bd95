import ScriptAudit.Json.Basic
import ScriptAudit.Text.Quoted

/-!
# Writing JSON

Two layouts: everything on one line, and one entry on each line with two blanks for each level.
Characters outside ASCII are written as they are.
-/

namespace ScriptAudit.Json

def escaped (c : Char) : List Char :=
  if c == '"' then ['\\', '"']
  else if c == '\\' then ['\\', '\\']
  else if c == '\n' then ['\\', 'n']
  else if c == '\r' then ['\\', 'r']
  else if c == '\t' then ['\\', 't']
  else if c == '\x08' then ['\\', 'b']
  else if c == '\x0c' then ['\\', 'f']
  else if c.toNat < 0x20 then '\\' :: 'u' :: Text.hexOfWidth 4 c.toNat
  else [c]

def quotedText (s : String) : String :=
  String.ofList ('"' :: s.toList.flatMap escaped ++ ['"'])

def numberText : Number → String
  | .infinite false => "Infinity"
  | .infinite true => "-Infinity"
  | .undefined => "NaN"
  | n => n.text

mutual

def compact : Json → String
  | null => "null"
  | boolean b => if b then "true" else "false"
  | number n => numberText n
  | text s => quotedText s
  | list xs => "[" ++ ", ".intercalate (compactElements xs) ++ "]"
  | object fields => "\x7b" ++ ", ".intercalate (compactFields fields) ++ "\x7d"

def compactElements : List Json → List String
  | [] => []
  | x :: xs => compact x :: compactElements xs

def compactFields : List (String × Json) → List String
  | [] => []
  | (k, x) :: rest => (quotedText k ++ ": " ++ compact x) :: compactFields rest

end

def lineBreak (level : Nat) : String :=
  String.ofList ('\n' :: List.replicate (2 * level) ' ')

def bracketed (opening closing : String) (level : Nat) (entries : List String) : String :=
  if entries.isEmpty then opening ++ closing
  else
    opening ++ lineBreak (level + 1) ++ ("," ++ lineBreak (level + 1)).intercalate entries
      ++ lineBreak level ++ closing

mutual

def pretty (level : Nat) : Json → String
  | null => "null"
  | boolean b => if b then "true" else "false"
  | number n => numberText n
  | text s => quotedText s
  | list xs => bracketed "[" "]" level (prettyElements (level + 1) xs)
  | object fields => bracketed "\x7b" "\x7d" level (prettyFields (level + 1) fields)

def prettyElements (level : Nat) : List Json → List String
  | [] => []
  | x :: xs => pretty level x :: prettyElements level xs

def prettyFields (level : Nat) : List (String × Json) → List String
  | [] => []
  | (k, x) :: rest => (quotedText k ++ ": " ++ pretty level x) :: prettyFields level rest

end

end ScriptAudit.Json
