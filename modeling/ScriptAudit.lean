import ScriptAudit.Main
import ScriptAudit.Proofs.Capped
import ScriptAudit.Proofs.Engine.Repetition
import ScriptAudit.Proofs.Flow.Dominance
import ScriptAudit.Proofs.Program.AliasRounds
import ScriptAudit.Proofs.Program.Enums
import ScriptAudit.Proofs.Program.GlobalOrder
import ScriptAudit.Proofs.Program.Mined
import ScriptAudit.Proofs.Report.CallSites
import ScriptAudit.Proofs.Report.Chunks
import ScriptAudit.Proofs.Report.Conservation
import ScriptAudit.Proofs.Report.Excerpts
import ScriptAudit.Proofs.Request.Correlation
import ScriptAudit.Proofs.Request.Searches
import ScriptAudit.Proofs.Files.Discovery
import ScriptAudit.Proofs.Resolve.DottedTexts
import ScriptAudit.Proofs.Resolve.Grouping
import ScriptAudit.Proofs.Resolve.Literals
import ScriptAudit.Proofs.Resolve.PatternParts
import ScriptAudit.Proofs.Resolve.Substitution
import ScriptAudit.Proofs.Resolve.SuppliedTexts
import ScriptAudit.Proofs.Scope.Writes
import ScriptAudit.Proofs.Taint.Destructured
import ScriptAudit.Proofs.Taint.OwnFunctions
import ScriptAudit.Proofs.Taint.Provenance
import ScriptAudit.Proofs.Taint.Raising
