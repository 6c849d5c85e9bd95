import ScriptAudit.Fault

/-!
# Candidate lists

The texts a value can take. Lists are united in order without repetition, and joined position by
position, where a list that is too short repeats its last text. Both stop at a cap.
-/

namespace ScriptAudit

def uniteInto (cap : Nat) (found : List String) : List String → List String
  | [] => found
  | s :: rest =>
    if found.contains s then uniteInto cap found rest
    else
      let found := found ++ [s]
      if cap ≤ found.length then found else uniteInto cap found rest

def unite (cap : Nat) (groups : List (List String)) : List String :=
  uniteInto cap [] groups.flatten

def columnAt (column : List String) (i : Nat) : String :=
  (column[min i (column.length - 1)]?).getD ""

def columnsWidth (cap : Nat) (columns : List (List String)) : Nat :=
  min ((columns.map List.length).foldl max 0) cap

def zipColumns (cap : Nat) (columns : List (List String)) : Except Fault (List String) :=
  let width := columnsWidth cap columns
  if 0 < width && columns.any List.isEmpty then .error .emptyColumn
  else .ok ((List.range width).map fun i => String.join (columns.map (columnAt · i)))

end ScriptAudit
