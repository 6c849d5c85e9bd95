/-!
# First occurrences

Lists in which nothing occurs twice. What occurs again is left out, so the order is that of the
first occurrences.
-/

namespace ScriptAudit

def freshBy {α β : Type} [BEq β] (key : α → β) (seen : List β) : List α → List α
  | [] => []
  | x :: rest =>
    if seen.contains (key x) then freshBy key seen rest
    else x :: freshBy key (key x :: seen) rest

def distinctBy {α β : Type} [BEq β] (key : α → β) (xs : List α) : List α :=
  freshBy key [] xs

def distinct {α : Type} [BEq α] (xs : List α) : List α :=
  distinctBy id xs

def addNew {α : Type} [BEq α] (known : List α) (a : α) : List α :=
  if known.contains a then known else known ++ [a]

def addAllNew {α : Type} [BEq α] (known new : List α) : List α :=
  new.foldl addNew known

end ScriptAudit
