import ScriptAudit.Proofs.Resolve.Quiet
import ScriptAudit.Taint.Analysis

/-!
# The steps of the taint analysis

Besides what the rules of resolution remember, taints that were traced are remembered, and message
handlers are noted.
-/

namespace ScriptAudit

open Engine Memory

/-- A relation that has the changes of remembering taints and of noting handlers. -/
class Memory.HasTaintChanges (R : Memory → Memory → Prop) : Prop where
  taints (m : Memory) (memo : Memo NodeId Taint) : R m { m with taints := memo }
  handlers (m : Memory) (handlers : List NodeId) (eventParams : List Nat) : R m { m with handlers, eventParams }

variable {known : Option Facts} {R : Memory → Memory → Prop}
variable (n : Option Node) (node : Node) (b : Binding) (name : String) (depth : Nat) (arguments : List Node)

@[simp] lemma steps_registeredHandlers : registeredHandlers.StepsBy known R := by
  simp [registeredHandlers]

@[simp] lemma steps_isStrongUse (origin : Node) : (isStrongUse origin).StepsBy known R := by
  have hknown (collection : Option Node) : (isKnownCollection collection).StepsBy known R := by
    simp [isKnownCollection]
  refine .bind steps_model fun _ => ?_
  repeat' split
  all_goals simp [hknown]

@[simp] lemma steps_originCheck (function : Node) (event : Option Binding) :
    (originCheck function event).StepsBy known R := by simp [originCheck]

@[simp] lemma steps_checkPolicy : (checkPolicy arguments).StepsBy known R := by
  have hpas (rule : String) (value : Node) : (passesInput rule value).StepsBy known R := by simp [passesInput]
  have hrules (ref : ShapeRef) (size : Nat) (rules : List (String × Node)) :
      (passingRule? ref size rules).StepsBy known R := by
    induction rules with
    | nil => simp [passingRule?]
    | cons r rest ih => simp [passingRule?, hpas, ih]
  unfold checkPolicy
  repeat' split
  all_goals simp [Option.forall, hrules]

@[simp] lemma steps_checkMethodCall : (checkMethodCall name n arguments).StepsBy known R := by
  refine .bind steps_facts fun facts => ?_
  repeat' split
  all_goals simp

@[simp] lemma steps_checkCall : (checkCall node).StepsBy known R := by
  have hcode (name : String) (arguments : List Node) : (checkCodeCall name arguments).StepsBy known R := by
    unfold checkCodeCall
    split <;> simp
  have hglo (callee : Node) (arguments : List Node) : (checkGlobalCall callee arguments).StepsBy known R := by
    refine .bind steps_facts fun facts => ?_
    split <;> simp [hcode]
  unfold checkCall
  repeat' first | (simp; done) | split | refine .bind (hglo ..) fun _ => ?_

@[simp] lemma steps_checkNode : (checkNode node).StepsBy known R := by
  unfold checkNode
  split <;> simp

section Rules

variable {trace : Option Node → Engine Taint} (htrace : ∀ n, (trace n).StepsBy known R)
include htrace

lemma steps_traceAll (nodes : List Node) : (traceAll trace nodes).StepsBy known R := by
  simp [traceAll, htrace]

lemma steps_traceProperty : (traceProperty trace depth node name).StepsBy known R := by
  simp [traceProperty, Option.forall, htrace]

lemma steps_traceSupplied : (traceSupplied trace depth b).StepsBy known R := by
  unfold traceSupplied
  split <;> simp [steps_traceProperty, htrace]

lemma steps_traceParam : (traceParam trace depth b).StepsBy known R := by
  refine .bind steps_facts fun _ => ?_
  repeat' split
  all_goals simp [htrace, steps_traceSupplied]

lemma steps_traceVariable : (traceVariable trace b).StepsBy known R := by
  have hpat (source : Node) : (tracePattern trace b source).StepsBy known R := by
    unfold tracePattern
    split <;> simp [htrace]
  have hwrites : (traceWrites trace b).StepsBy known R := by
    refine .bind (steps_mapM fun w _ => ?_) fun _ => steps_pure _
    split <;> simp [htrace]
  have hloop : (traceLoop trace b).StepsBy known R := by
    refine .bind steps_model fun m => ?_
    split <;> simp [htrace]
  simp [traceVariable, htrace, hpat, hwrites, hloop]

lemma steps_traceIdentifier : (traceIdentifier trace depth node).StepsBy known R := by
  repeat' first
    | (simp [htrace, steps_traceAll, steps_traceParam, steps_traceVariable]; done)
    | split
    | refine .bind (by simp) fun _ => ?_

lemma steps_traceMember : (traceMember trace depth node).StepsBy known R := by
  have hcomp (object : Node) : (traceComputed trace depth node object).StepsBy known R := by
    simp [traceComputed, Option.forall, htrace]
  have hnamed (object : Node) (name : String) : (traceNamed trace depth object name).StepsBy known R := by
    simp [traceNamed, htrace]
  refine .bind steps_facts fun _ => ?_
  repeat' split
  all_goals simp [hcomp, hnamed]

lemma steps_traceCall : (traceCall trace depth node).StepsBy known R := by
  have hret (callee : Node) : (traceReturned trace depth node callee).StepsBy known R := by
    simp [traceReturned, htrace]
  refine .bind steps_facts fun _ => ?_
  repeat' split
  all_goals simp [hret, htrace, steps_traceAll]

lemma steps_taintRule : (taintRule trace depth node).StepsBy known R := by
  unfold taintRule
  split <;> simp [htrace, steps_traceAll htrace, steps_traceIdentifier, steps_traceMember, steps_traceCall]

end Rules

variable [HasTaintChanges R]

@[simp] lemma steps_noteHandler (function : Node) : (noteHandler function).StepsBy known R := by
  refine .bind steps_model fun m => .bind (fun m => ?_) fun _ => ?_
  · exact HasTaintChanges.handlers m _ _
  · simp [steps_originCheck]

variable [HasOwnChanges R]

@[simp] lemma steps_traceWithin (room : Nat) : (traceWithin room depth n).StepsBy known R := by
  induction room generalizing depth n with
  | zero => cases n <;> simp [traceWithin]
  | succ room ih =>
    cases n with
    | none => simp [traceWithin]
    | some n =>
      refine steps_ite.mpr ⟨fun _ => steps_pure _, fun _ => ?_⟩
      refine steps_consider (fun _ m => HasTaintChanges.taints m _) ?_
      rintro _ ⟨⟩
      exact steps_taintRule n depth fun k => ih k (depth + 1)

@[simp] lemma steps_traceSource : (traceSource n depth).StepsBy known R := by simp [traceSource]

@[simp] lemma steps_emissionAt? : (emissionAt? node).StepsBy known R := by
  have hsink (s : TaintSink) : (sinkEmission? node s).StepsBy known R := by simp [sinkEmission?]
  refine .bind (steps_checkNode node) fun check => ?_
  cases check <;> simp [hsink]

@[simp] lemma steps_analyseTaint : analyseTaint.StepsBy known R := by simp [analyseTaint, messageHandlers]

end ScriptAudit
