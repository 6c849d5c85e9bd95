/-!
# Tables

A table maps keys to values and keeps the order in which its keys were first entered. A memo is the
same without the order: the newest entry for a key counts.
-/

namespace ScriptAudit

structure Table (κ α : Type) where
  entries : List (κ × α)
  deriving Repr

namespace Table

variable {κ α : Type} [BEq κ]

def empty : Table κ α := ⟨[]⟩

def get? (t : Table κ α) (k : κ) : Option α :=
  t.entries.lookup k

def getD (t : Table κ α) (k : κ) (fallback : α) : α :=
  (t.get? k).getD fallback

def contains (t : Table κ α) (k : κ) : Bool :=
  (t.get? k).isSome

def keys (t : Table κ α) : List κ :=
  t.entries.map (·.1)

def values (t : Table κ α) : List α :=
  t.entries.map (·.2)

def size (t : Table κ α) : Nat :=
  t.entries.length

def isEmpty (t : Table κ α) : Bool :=
  t.entries.isEmpty

def alterEntries (k : κ) (f : Option α → α) : List (κ × α) → List (κ × α)
  | [] => [(k, f none)]
  | (k', a) :: rest => if k == k' then (k', f (some a)) :: rest else (k', a) :: alterEntries k f rest

def alter (t : Table κ α) (k : κ) (f : Option α → α) : Table κ α :=
  ⟨alterEntries k f t.entries⟩

def insert (t : Table κ α) (k : κ) (a : α) : Table κ α :=
  t.alter k fun _ => a

def insertNew (t : Table κ α) (k : κ) (a : α) : Table κ α :=
  if t.contains k then t else ⟨t.entries ++ [(k, a)]⟩

def erase (t : Table κ α) (k : κ) : Table κ α :=
  ⟨t.entries.filter fun e => !(k == e.1)⟩

def ofList (entries : List (κ × α)) : Table κ α :=
  entries.foldl (fun t e => t.insert e.1 e.2) empty

end Table

def Table.push {κ α : Type} [BEq κ] (t : Table κ (List α)) (k : κ) (a : α) : Table κ (List α) :=
  t.alter k fun
    | some as => as ++ [a]
    | none => [a]

structure Memo (κ α : Type) where
  entries : List (κ × α)

namespace Memo

variable {κ α : Type} [BEq κ]

def empty : Memo κ α := ⟨[]⟩

def get? (m : Memo κ α) (k : κ) : Option α :=
  m.entries.lookup k

def insert (m : Memo κ α) (k : κ) (a : α) : Memo κ α :=
  ⟨(k, a) :: m.entries⟩

end Memo

end ScriptAudit
