/-!
# Columns

Texts filled up with blanks to a common width. A text that is wider is left as it is.
-/

namespace ScriptAudit.Text

def padEnd (width : Nat) (s : String) : String :=
  s ++ String.ofList (List.replicate (width - s.length) ' ')

def padStart (width : Nat) (s : String) : String :=
  String.ofList (List.replicate (width - s.length) ' ') ++ s

end ScriptAudit.Text
