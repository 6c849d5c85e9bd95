import ScriptAudit.Proofs.Engine.Gives
import ScriptAudit.Proofs.Query
import ScriptAudit.Proofs.Report.Joining

/-!
# Faults of an analysis

On a well-formed program queries and analyses answer, or fail in a way that well-formedness does not
rule out: a position in an array can be written with digits and still be no number, and a shape can
gain properties while they are gone through.
-/

namespace ScriptAudit

open Engine Question

variable {F : Facts} {root : Node} {α : Type}

def Superscript.array : Node :=
  .array 5 [.textLiteral 6 "/z"]

def Superscript.program : Node :=
  .script [.statement 1 (.call 2 (.identifier 3 "fetch") [.keyed 4 array (.textLiteral 7 "²")])]

def GrowingShape.program : Node :=
  .script [.declaration 1 "h" (.object 4 [.entry 5 "p" (.object 7 [.entry 8 "a" (.member 10
    (.identifier 12 "o") "c"), .entry 13 "b" (.textLiteral 15 "x")])]),
    .declaration 16 "o" (.member 19 (.identifier 21 "h") "p"),
    .statement 22 (.assign 23 (.member 24 (.identifier 26 "o") "c") (.textLiteral 27 "y")),
    .statement 28 (.call 29 (.identifier 30 "fetch") [.keyed 31 (.member 32 (.identifier 34 "h")
    "p") (.identifier 35 "k")])]

end ScriptAudit
