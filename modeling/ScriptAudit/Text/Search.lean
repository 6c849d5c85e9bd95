/-!
# Searching a text

Finding, replacing and splitting at a fixed pattern, left to right and without overlaps.
-/

namespace ScriptAudit.Text

def dropLeading? : List Char → List Char → Option (List Char)
  | [], s => some s
  | _ :: _, [] => none
  | a :: p, b :: s => if a == b then dropLeading? p s else none

def startsWith (s p : String) : Bool :=
  (dropLeading? p.toList s.toList).isSome

def cut? (p : List Char) : List Char → Option (List Char × List Char)
  | [] => (dropLeading? p []).map ([], ·)
  | c :: s =>
    match dropLeading? p (c :: s) with
    | some rest => some ([], rest)
    | none => (cut? p s).map fun (before, rest) => (c :: before, rest)

def replaceFrom (p new : List Char) : Option Nat → Nat → List Char → List Char
  | _, _, [] => []
  | count, skip + 1, _ :: s => replaceFrom p new count skip s
  | some 0, 0, c :: s => c :: s
  | count, 0, c :: s =>
    match dropLeading? p (c :: s) with
    | some _ => new ++ replaceFrom p new (count.map (· - 1)) (p.length - 1) s
    | none => c :: replaceFrom p new count 0 s

def interleaveFrom (new : List Char) : Option Nat → List Char → List Char
  | some 0, s => s
  | _, [] => new
  | count, c :: s => new ++ c :: interleaveFrom new (count.map (· - 1)) s

def replace (s p new : String) (count : Option Nat) : String :=
  String.ofList <|
    if p.isEmpty then interleaveFrom new.toList count s.toList
    else replaceFrom p.toList new.toList count 0 s.toList

def splitFrom (p : List Char) (piece : List Char) : Nat → List Char → List (List Char)
  | _, [] => [piece.reverse]
  | skip + 1, _ :: s => splitFrom p piece skip s
  | 0, c :: s =>
    match dropLeading? p (c :: s) with
    | some _ => piece.reverse :: splitFrom p [] (p.length - 1) s
    | none => splitFrom p (c :: piece) 0 s

def split (s separator : String) : List String :=
  if separator.isEmpty then s.toList.map String.singleton
  else (splitFrom separator.toList [] 0 s.toList).map String.ofList

end ScriptAudit.Text
