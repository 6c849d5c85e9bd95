import ScriptAudit.Tree.Read

/-!
# Catalogs of trees

Syntax trees for the texts of many scripts, looked up by the text itself.
-/

namespace ScriptAudit

def ParseAttempts.ofJson (j : Json) : ParseAttempts :=
  let attempt (name : String) : ParseAttempt :=
    ((j.field? name).bind ParseAttempt.ofJson?).getD (.failure "")
  ⟨attempt "script", attempt "mod"⟩

structure Catalog where
  attempts : Table String ParseAttempts

namespace Catalog

def ofJson (j : Json) : Catalog :=
  ⟨Table.ofList ((j.elements?.getD []).filterMap fun p =>
    ((p.field? "code").bind Json.text?).map fun code => (code, ParseAttempts.ofJson p))⟩

def attemptsFor (c : Catalog) (code : String) : ParseAttempts :=
  c.attempts.getD code ⟨.failure "no syntax tree", .failure "no syntax tree"⟩

end Catalog

end ScriptAudit
