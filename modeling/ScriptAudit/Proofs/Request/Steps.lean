import ScriptAudit.Proofs.Resolve.Quiet
import ScriptAudit.Request.Record

/-!
# The steps of finding requests

Besides what the rules of resolution remember, only the request objects that were found are
remembered.
-/

namespace ScriptAudit

open Engine Memory

/-- A relation that has the changes of noting whether a node holds a request object. -/
class Memory.HasRequestChanges (R : Memory → Memory → Prop) : Prop where
  xhr (m : Memory) (memo : Memo NodeId Bool) : R m { m with xhr := memo }

instance : HasRequestChanges Quiet where
  xhr m _ := { Quiet.refl m with }

variable {known : Option Facts} {R : Memory → Memory → Prop} (n : Option Node) (node : Node)

@[simp] lemma steps_xhrOrigins : (xhrOrigins node).StepsBy known R := by
  refine .bind steps_facts fun facts => ?_
  repeat' split
  all_goals simp

@[simp] lemma steps_xhrArguments : (xhrArguments node).StepsBy known R := by
  refine .bind steps_model fun m => ?_
  split <;> simp

@[simp] lemma steps_objectParams : (objectParams node).StepsBy known R := by
  have hparam (p : Node) : (propertyParam? p).StepsBy known R := by
    unfold propertyParam?
    repeat' split
    all_goals simp
  simp [objectParams, hparam]

@[simp] lemma steps_headersOf : (headersOf n).StepsBy known R := by
  refine .bind steps_facts fun facts => ?_
  split <;> simp [Option.forall]

@[simp] lemma steps_addresses (readable : Bool) : (addresses node readable).StepsBy known R := by
  have hterm (term : Node) (place : Nat) : (termText term place).StepsBy known R := by
    refine .bind (steps_ask _) fun texts => ?_
    split <;> simp
  have hform : (addressForm node).StepsBy known R := by
    refine steps_ite.mpr ⟨fun _ => steps_pure _, fun _ => steps_ite.mpr ⟨fun _ => ?_, fun _ => ?_⟩⟩
    · simp [hterm]
    · split <;> simp
  simp [addresses, hform]

@[simp] lemma steps_xhrMethods (sink : RequestSink) (urls : List String) : (xhrMethods sink urls).StepsBy known R := by
  have hpaired (b : Binding) (methodName urlName : String) : (pairedMethods b methodName urlName).StepsBy known R := by
    refine .bind (Ask.steps_argumentPaths b none) fun paths => steps_foldlM fun pairs path _ => ?_
    refine .bind (steps_ask _) fun methods => .bind (steps_ask _) fun urls => ?_
    split <;> simp
  have hpass : (passedMethods sink).StepsBy known R := by
    refine .bind steps_model fun m => ?_
    split <;> simp [hpaired]
  refine .bind hpass fun paired => steps_ite.mpr ⟨fun _ => steps_pure _, fun _ => ?_⟩
  refine .bind (Ask.steps_values ..) fun methods => ?_
  split <;> simp

@[simp] lemma steps_firstText (nodes : List Node) : (firstText nodes).StepsBy known R := by
  induction nodes with
  | nil => exact steps_pure _
  | cons n rest ih =>
    refine .bind (steps_ask _) fun texts => ?_
    cases texts <;> simp [ih]

@[simp] lemma steps_suits (dep : Dependency) (deep : Bool) (site : CallSite) :
    (suits dep deep site).StepsBy known R := by
  have hknown (n : Node) : (knownProperties n).StepsBy known R := by
    refine .bind (steps_ask _) fun found => ?_
    cases found <;> simp
  have hpas (nodes : List Node) : (passesProperties dep.properties nodes).StepsBy known R := by
    induction nodes with
    | nil => exact steps_pure _
    | cons a rest ih => simp [passesProperties, hknown, ih]
  simp [suits, hpas]

lemma steps_withPlan {α : Type} (plan : List PlannedCall) {x : Engine α} (hx : x.StepsBy known R) :
    (withPlan plan x).StepsBy known R := by
  induction plan with
  | nil => exact hx
  | cons p rest ih => exact steps_withCall _ _ _ ih

lemma steps_xhrRule {holds : Node → Engine Bool} (h : ∀ n, (holds n).StepsBy known R) (depth : Nat) :
    (xhrRule holds node depth).StepsBy known R := by
  refine .bind steps_facts fun facts => ?_
  split
  case h_7 => split <;> simp [h]
  all_goals simp [h]

@[simp] lemma steps_targetParams : (targetParams node).StepsBy known R := by
  have horig (origin : Option Node) : (originParams origin).StepsBy known R := by
    cases origin <;> simp [originParams]
  simp [targetParams, Option.forall, horig, shapeParams]

@[simp] lemma steps_plansFor (dep : Dependency) (deep : Bool) (cap : Nat) (plans : List (List PlannedCall))
    (sites : List CallSite) : (plansFor dep deep cap plans sites).StepsBy known R := by
  have hforwarding (site : CallSite) : (forwardingCalls site).StepsBy known R := by
    refine .bind steps_facts fun facts => ?_
    split <;> simp
  induction sites generalizing plans with
  | nil => exact steps_pure _
  | cons site rest ih => simp [plansFor, hforwarding, ih]

@[simp] lemma steps_payloadParams : (payloadParams n).StepsBy known R := by
  unfold payloadParams
  split <;> simp

@[simp] lemma steps_callerPlans (sink : RequestSink) : (callerPlans sink).StepsBy known R := by
  refine .bind steps_facts fun facts => ?_
  dsimp only
  split <;> simp

@[simp] lemma steps_serialisedParams? : (serialisedParams? n).StepsBy known R := by
  refine .bind steps_facts fun facts => ?_
  split <;> simp

@[simp] lemma steps_bodyElsewhere? : (bodyElsewhere? node).StepsBy known R := by
  unfold bodyElsewhere?
  split
  · refine .bind steps_model fun m => ?_
    split <;> simp [Option.forall]
  · unfold memberBody?
    split
    · refine .bind steps_model fun m => .bind (steps_boundOf? _) fun bound => ?_
      cases bound with
      | none => simp
      | some bound =>
        refine .bind ?_ fun found => steps_serialisedParams? found
        unfold passedProperty
        split <;> simp
    · exact steps_pure _
  · exact steps_pure _

@[simp] lemma steps_bodyParams : (bodyParams n).StepsBy known R := by
  unfold bodyParams
  repeat' first | (simp; done) | split | refine .bind (by simp) fun _ => ?_

@[simp] lemma steps_fetchOptions : (fetchOptions n).StepsBy known R := by simp [fetchOptions, Option.forall]

@[simp] lemma steps_note (x : XhrUse) (members : Bool) (name : String) :
    (x.note members name node).StepsBy known R := by
  have hheader (header value : Node) : (x.withHeader header value).StepsBy known R := by
    refine .bind (steps_ask _) fun names => ?_
    split <;> simp
  unfold XhrUse.note
  split <;> simp [hheader]

@[simp] lemma steps_sinkDetails (sink : RequestSink) (urls : List String) (members : Bool) :
    (sinkDetails sink urls members).StepsBy known R := by
  unfold sinkDetails
  split <;> simp

@[simp] lemma steps_sinkRecordsHere (sink : RequestSink) (traced : Bool) :
    (sinkRecordsHere sink traced).StepsBy known R := by simp [sinkRecordsHere]

@[simp] lemma steps_sinkRecords (sink : RequestSink) : (sinkRecords sink).StepsBy known R := by
  refine .bind (steps_callerPlans sink) fun plans => ?_
  refine .bind (steps_mapM fun plan _ => steps_withPlan plan ?_) fun traced => ?_
  all_goals simp

variable [HasRequestChanges R]

@[simp] lemma steps_holdsXhr (room depth : Nat) : (holdsXhr room depth node).StepsBy known R := by
  induction room generalizing depth node with
  | zero => exact steps_pure _
  | succ room ih =>
    refine .bind steps_session fun s => ?_
    split
    · exact steps_pure _
    · refine .bind (steps_xhrRule node (fun n => ih n (depth + 1)) depth) fun found => ?_
      cases found with
      | none => exact steps_pure _
      | some found =>
        refine steps_ite.mpr ⟨fun _ => ?_, fun _ => steps_pure _⟩
        exact .bind (fun m => HasRequestChanges.xhr m _) fun _ => steps_pure _

@[simp] lemma steps_isXhr (depth : Nat) : (isXhr n depth).StepsBy known R := by
  unfold isXhr
  split <;> simp

@[simp] lemma steps_callSink? : (callSink? node).StepsBy known R := by
  unfold callSink?
  repeat' split
  all_goals simp [opensXhr]

@[simp] lemma steps_requestSink? : (requestSink? node).StepsBy known R := by
  unfold requestSink?
  split <;> simp

@[simp] lemma steps_allRecords : allRecords.StepsBy known R := by
  refine .bind steps_model fun m => .bind (steps_mapM fun n _ => ?_) fun _ => steps_pure _
  refine .bind (steps_requestSink? n) fun found => ?_
  cases found <;> simp

lemma quiet_isXhr (depth : Nat) : (isXhr n depth).Quiet := (steps_isXhr n depth).quiet

lemma quiet_bodyParams : (bodyParams n).Quiet := (steps_bodyParams n).quiet

lemma quiet_allRecords : allRecords.Quiet := steps_allRecords.quiet

end ScriptAudit
