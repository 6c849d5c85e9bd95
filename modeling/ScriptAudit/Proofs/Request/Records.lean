import ScriptAudit.Proofs.Request.Sinks
import ScriptAudit.Proofs.Resolve.Values
import ScriptAudit.Request.Record

/-!
# Resolving requests keeps to the program

What is found out about a request comes from asking about nodes of the program.
-/

namespace ScriptAudit

open Ask Engine List Option

variable {F : Facts} {n : Node} {sink : RequestSink}

lemma meets_propertyParam? {p : Node} (hp : F.Has p) : (propertyParam? p).Meets F (some 0) fun _ => True := by
  refine meets_ite (fun _ => meets_done) fun _ => meets_ite (fun _ => meets_done) fun _ => ?_
  split
  next name value _ hval =>
    have hval := hp.child? .value value hval
    refine meets_ite (fun _ => meets_done) fun _ => ?_
    exact (meets_askValues hval.knows (by omega)).done
  · exact meets_done

lemma meets_objectParams {literal : Node} (h : F.Has literal) : (objectParams literal).Meets F (some 0) fun _ => True :=
  (meets_mapM fun _ hp => meets_propertyParam? (h.mem_list hp)).done

lemma has_serialised? {facts : Facts} (hn : F.Has n) {payload : Option Node}
    (h : serialised? facts n = some payload) : F.MaybeHas payload := by
  have hhead : F.MaybeHas (n.list .arguments).head? := fun a ha => hn.mem_list (mem_of_mem_head? ha)
  unfold serialised? at h
  split at h
  · obtain ⟨callee, -, h⟩ := bind_eq_some_iff.mp h
    split at h <;> cases h
    exact hhead
  · split at h <;> cases h
    exact hhead
  · cases h

lemma meets_shapeParams (ref : ShapeRef) : (shapeParams ref).Meets F (some 0) fun _ => True := by
  refine .bind (meets_shapeAt ref) fun shape hshape => ?_
  have horig : (originParams shape.origin).Meets F (some 0) fun _ => True := by
    unfold originParams
    split
    next o ho => exact meets_ite (fun _ => meets_objectParams (hshape.origin o ho)) fun _ => meets_done
    · exact meets_done
  exact .bind horig fun _ _ => (meets_shapeAt ref).done

lemma meets_payloadParams {payload : Option Node} (h : F.MaybeHas payload) :
    (payloadParams payload).Meets F (some 0) fun _ => True := by
  unfold payloadParams
  split
  · exact meets_done
  next target =>
    have htgt := h target rfl
    refine .bind (P := fun _ => True) ?_ fun _ _ => meets_done
    refine meets_ite (fun _ => meets_objectParams htgt) fun _ => ?_
    refine .bind (meets_askObject htgt (by omega)) fun found _ => ?_
    split
    · exact meets_done
    · exact meets_shapeParams _

lemma meets_serialisedParams? {definition : Option Node} (h : F.MaybeHas definition) :
    (serialisedParams? definition).Meets F (some 0) fun _ => True := by
  refine .bind meets_facts fun facts _ => ?_
  split
  next payload hpayload =>
    obtain ⟨n, hn, hpayload⟩ := bind_eq_some_iff.mp hpayload
    exact (meets_payloadParams (has_serialised? (h n hn) hpayload)).done
  · exact meets_done

lemma meets_passedProperty {passed : Passed} (h : F.Has passed.argument) (property : String) :
    (passedProperty passed property).Meets F (some 0) F.MaybeHas := by
  unfold passedProperty
  split
  · exact meets_objectProperty h.some property (by omega)
  next key _ =>
    exact .bind (meets_objectProperty h.some key (by omega)) fun _ hobj =>
      meets_objectProperty hobj property (by omega)

lemma meets_namedBody? (hF : F.Sound) (n : Node) : (namedBody? n).Meets F (some 0) fun _ => True := by
  refine .bind_model ?_
  split
  · exact meets_done
  next b hb =>
    refine .bind (meets_bound b) fun bound hbound => ?_
    split
    next index passed =>
      refine meets_underOuter (.bind (meets_takenFrom (hbound index passed rfl)
        passed.key (by omega)) fun _ h => meets_serialisedParams? h)
    · refine meets_serialisedParams? ?_
      split
      · exact (hF.model.binding? hb).initial
      · exact Facts.maybeHas_none

lemma meets_memberBody? (hn : F.Has n) : (memberBody? n).Meets F (some 0) fun _ => True := by
  unfold memberBody?
  split
  next property object _ hobj =>
    have hobj := hn.child? .object object hobj
    refine .bind meets_model fun _ _ => .bind (meets_boundOf? _) fun bound hbound => ?_
    split
    next index passed =>
      exact meets_underOuter (.bind (meets_passedProperty (hbound index passed rfl) property)
        fun _ h => meets_serialisedParams? h)
    · exact .bind (meets_objectProperty hobj.some property (by omega)) fun _ h => meets_serialisedParams? h
  · exact meets_done

lemma meets_bodyParams (hF : F.Sound) {n : Option Node} (hn : F.MaybeHas n) :
    (bodyParams n).Meets F (some 0) fun _ => True := by
  unfold bodyParams
  split
  · exact meets_done
  next n =>
    have hn := hn n rfl
    refine .bind meets_facts fun facts _ => ?_
    split
    next payload hpayload => exact meets_payloadParams (has_serialised? hn hpayload)
    · have helse : (bodyElsewhere? n).Meets F (some 0) fun _ => True := by
        unfold bodyElsewhere?
        split
        · exact meets_namedBody? hF n
        · exact meets_memberBody? hn
        · exact meets_done
      refine .bind helse fun elsewhere _ => ?_
      split
      · exact meets_done
      · exact meets_payloadParams hn.some

lemma meets_headersOf {n : Option Node} (hn : F.MaybeHas n) : (headersOf n).Meets F (some 0) fun _ => True := by
  refine .bind meets_facts fun facts _ => ?_
  split
  · exact meets_done
  next source hsrc =>
    obtain ⟨m, hm, hsrc⟩ := bind_eq_some_iff.mp hsrc
    have hm := hn m hm
    have hsrc : F.Has source := by
      unfold headerSource at hsrc
      split at hsrc
      · exact hm.mem_list (mem_of_mem_head? hsrc)
      · cases hsrc
        exact hm
    refine .bind (meets_askObject hsrc (by omega)) fun found _ => ?_
    split
    · exact meets_done
    · refine .bind (meets_visitProperties (Q := fun _ => True) _ fun name value hval => ?_)
        fun _ _ => meets_done
      exact (meets_askValues hval.knows (by omega)).done

lemma meets_addresses (hn : F.Has n) (readable : Bool) : (addresses n readable).Meets F (some 0) fun _ => True := by
  refine .bind (meets_askValues hn.knows (by omega)) fun values _ => ?_
  refine meets_ite (fun _ => meets_done) fun _ => meets_ite (fun _ => ?_) fun _ => meets_done
  refine .bind (P := fun _ => True) ?_ fun _ _ => meets_done
  refine meets_ite (fun _ => meets_done) fun _ => meets_ite (fun _ => ?_) fun _ => ?_
  · refine .bind (meets_mapM (Q := fun _ => True) fun t ht => ?_) fun _ _ => meets_done
    have ht : F.Has t.1 := Node.Below.mem_concatTerms hn (fst_mem_of_mem_zipIdx ht)
    refine .bind (meets_askValues ht.knows (by omega)) fun texts _ => ?_
    split <;> exact meets_done
  · split <;> exact meets_done

lemma meets_fetchOptions (hF : F.Sound) {options : Option Node} (h : F.MaybeHas options) :
    (fetchOptions options).Meets F (some 0) fun _ => True := by
  refine .bind (meets_object h (by omega)) fun found _ => ?_
  split
  · exact meets_done
  next ref =>
    refine .bind (meets_propertyOf? (some ref) "method") fun method hmeth => ?_
    refine .bind (meets_values hmeth (by omega)) fun _ _ => ?_
    refine .bind (meets_propertyOf? (some ref) "headers") fun headers hheaders => ?_
    refine .bind (meets_headersOf hheaders) fun _ _ => ?_
    refine .bind (meets_propertyOf? (some ref) "body") fun body hbody => ?_
    exact (meets_bodyParams hF hbody).done

lemma meets_pairedMethods (hF : F.Sound) {b : Binding} (hb : F.Declares b) (methodName urlName : String) :
    (pairedMethods b methodName urlName).Meets F (some 0) fun _ => True := by
  refine .bind (meets_argumentPaths hF hb none) fun paths hpaths => ?_
  refine meets_foldlM trivial fun pairs _ path hpath => ?_
  have hpath := hpaths path (mem_filter.mp hpath).1
  refine .bind (meets_askProperty hpath methodName (by omega)) fun methods _ => ?_
  refine .bind (meets_askProperty hpath urlName (by omega)) fun urls _ => ?_
  split <;> exact meets_done

lemma declares_of_pairedBinding? (hF : F.Sound) {method url : Node} {b : Binding} {methodName urlName : String}
    (h : pairedBinding? F.model method url = some (b, methodName, urlName)) : F.Declares b := by
  unfold pairedBinding? at h
  split at h
  · split at h
    next b' _ hb _ =>
      split at h <;> cases h
      exact hF.model.rootBinding? hb
    · cases h
  · cases h

lemma meets_xhrMethods (hF : F.Sound) (hsink : sink.Within F) (urls : List String) :
    (xhrMethods sink urls).Meets F (some 0) fun _ => True := by
  have hpass : (passedMethods sink).Meets F (some 0) fun _ => True := by
    refine .bind_model ?_
    split
    next b methodName urlName hpaired =>
      obtain ⟨method, -, hpaired⟩ := bind_eq_some_iff.mp hpaired
      refine .bind (meets_bound b) fun _ _ => meets_ite (fun _ => meets_done) fun _ => ?_
      exact meets_pairedMethods hF (declares_of_pairedBinding? hF hpaired) methodName urlName
    · exact meets_done
  refine .bind hpass fun paired _ => meets_ite (fun _ => meets_done) fun _ => ?_
  refine .bind (meets_values hsink.method (by omega)) fun values _ => ?_
  split <;> exact meets_done

lemma meets_firstText {nodes : List Node} (h : F.HasAll nodes) :
    (firstText nodes).Meets F (some 0) fun _ => True := by
  induction nodes with
  | nil => exact meets_done
  | cons n rest ih =>
    obtain ⟨hn, hrest⟩ := forall_mem_cons.mp h
    refine .bind (meets_askValues hn.knows (by omega)) fun texts _ => ?_
    split
    · exact meets_done
    · exact ih hrest

lemma has_of_mem_receiverCalls (hF : F.Sound) {receiver : Node} {c : String × Node}
    (h : c ∈ receiverCalls F.model receiver) : F.Has c.2 := by
  unfold receiverCalls at h
  obtain ⟨ref, -, h⟩ := mem_filterMap.mp h
  obtain ⟨member, -, h⟩ := bind_eq_some_iff.mp h
  obtain ⟨call, hcall, rfl⟩ := map_eq_some_iff.mp h
  exact hF.model.calledBy? hcall

lemma meets_note (hF : F.Sound) (members : Bool) (x : XhrUse) (name : String) {call : Node}
    (hcall : F.Has call) : (x.note members name call).Meets F (some 0) fun _ => True := by
  have hargs : F.HasAll (call.list .arguments) := fun a ha => hcall.mem_list ha
  unfold XhrUse.note
  split
  next header value rest hlist =>
    rw [hlist] at hargs
    have hheader := hargs header mem_cons_self
    have hval := hargs value (mem_cons_of_mem _ mem_cons_self)
    refine .bind (P := fun _ => True) ?_ fun _ _ => meets_done
    refine .bind (meets_askValues hheader.knows (by omega)) fun names _ => ?_
    split
    · exact (meets_askValues hval.knows (by omega)).done
    · exact meets_done
  next payload rest hlist =>
    rw [hlist] at hargs
    exact (meets_bodyParams hF (hargs payload mem_cons_self).some).done
  · exact meets_done

lemma meets_sinkDetails (hF : F.Sound) (hsink : sink.Within F) (urls : List String) (members : Bool) :
    (sinkDetails sink urls members).Meets F (some 0) fun _ => True := by
  refine .bind_model ?_
  split
  · exact (meets_fetchOptions hF hsink.options).done
  · exact (meets_bodyParams hF hsink.options).done
  · refine .bind (meets_xhrMethods hF hsink urls) fun methods _ => ?_
    refine .bind (meets_foldlM (Q := fun _ => True) trivial fun x _ c hc => ?_) fun x _ => ?_
    · obtain ⟨receiver, -, hc⟩ := exists_of_mem_getD hc
      exact meets_note hF members x c.1 (has_of_mem_receiverCalls hF hc)
    · refine .bind (meets_firstText fun n hn => ?_) fun _ _ => meets_done
      obtain ⟨receiver, -, hn⟩ := exists_of_mem_getD hn
      exact hF.model.mem_assignedMembers hn
  · exact meets_done

lemma meets_sinkRecordsHere (hF : F.Sound) (hsink : sink.Within F) (traced : Bool) :
    (sinkRecordsHere sink traced).Meets F (some 0) fun _ => True := by
  refine .bind meets_facts fun _ _ => ?_
  refine .bind (meets_addresses hsink.url _) fun urls _ => ?_
  refine meets_ite (fun _ => meets_done) fun _ => ?_
  exact (meets_sinkDetails hF hsink urls _).done

/-- The functions that a sink depends on are nodes of the program. -/
structure Dependencies.Within (F : Facts) (d : Dependencies) : Prop where
  found : d.found.All fun dep => F.Has dep.function

lemma Dependencies.Within.note (hF : F.Sound) {d : Dependencies} (hd : d.Within F) (n : Node) :
    (d.note F.model n).Within F := by
  unfold Dependencies.note
  split
  · exact hd
  next b hb =>
    split
    · exact hd
    · split
      next f hf =>
        have hf : F.Has f := by
          split at hf
          · exact (hF.model.rootBinding? hb).function f hf
          · cases hf
        exact ⟨hd.found.alter hf fun _ _ => hf⟩
      · exact ⟨hd.found⟩

lemma Dependencies.Within.through (hF : F.Sound) (rounds : Nat) {d : Dependencies}
    (hd : d.Within F) (roots : List Node) : (through F.model rounds d roots).Within F := by
  induction rounds generalizing d roots with
  | zero => exact hd
  | succ rounds ih =>
    have hstart : Dependencies.Within F { d with following := [] } := ⟨hd.found⟩
    exact ih (List.foldlRecOn _ _ hstart fun d hd n _ => hd.note hF n) _

def PlanWithin (F : Facts) (plan : List PlannedCall) : Prop :=
  ∀ p ∈ plan, F.Has p.call

lemma meets_passesProperties (properties : List String) {arguments : List Node} (h : F.HasAll arguments) :
    (passesProperties properties arguments).Meets F (some 0) fun _ => True := by
  induction arguments with
  | nil => exact meets_done
  | cons a rest ih =>
    obtain ⟨ha, hrest⟩ := forall_mem_cons.mp h
    have hknown : (knownProperties a).Meets F (some 0) fun _ => True := by
      refine .bind (meets_askObject ha (by omega)) fun found _ => ?_
      split
      · exact (meets_shapeAt _).done
      · exact meets_done
    exact .bind hknown fun _ _ => meets_ite (fun _ => meets_done) fun _ => ih hrest

lemma meets_forwardingCalls (hF : F.Sound) (site : CallSite) :
    (forwardingCalls site).Meets F (some 0) (PlanWithin F) := by
  refine .bind_facts ?_
  split
  · exact meets_pure fun p hp => by cases hp
  next outer houter =>
    refine .bind (meets_isBound outer) fun _ _ => ?_
    refine meets_ite (fun _ => meets_pure fun p hp => by cases hp) fun _ => ?_
    refine .bind (meets_callSites hF (hF.model.enclosingFunction? houter)) fun sites hsites =>
      meets_pure fun p hp => ?_
    obtain ⟨s, hs, rfl⟩ := mem_map.mp hp
    exact hsites s (mem_of_mem_take hs)

lemma meets_plansFor (hF : F.Sound) (dep : Dependency) (deep : Bool) (cap : Nat) {plans : List (List PlannedCall)}
    (hplans : ∀ plan ∈ plans, PlanWithin F plan) {sites : List CallSite} (hsites : ∀ site ∈ sites, F.Has site.call) :
    (plansFor dep deep cap plans sites).Meets F (some 0) fun ps => ∀ p ∈ ps, PlanWithin F p := by
  induction sites generalizing plans with
  | nil => exact meets_pure hplans
  | cons site rest ih =>
    obtain ⟨hsite, hrest⟩ := forall_mem_cons.mp hsites
    have hsuits : (suits dep deep site).Meets F (some 0) fun _ => True := by
      refine .bind meets_limits fun _ _ => meets_ite (fun _ => ?_) fun _ => meets_done
      exact meets_passesProperties _ fun a ha => hsite.mem_list (mem_of_mem_take ha)
    refine .bind hsuits fun _ _ => meets_ite (fun _ => ih hplans hrest) fun _ => ?_
    refine .bind (meets_forwardingCalls hF site) fun chained hchained => ?_
    have hmore : ∀ plan ∈ plans ++ (if chained.isEmpty then [[(⟨dep.function, site.call, site.offset⟩ : PlannedCall)]]
        else chained.map fun c => [c, ⟨dep.function, site.call, site.offset⟩]),
        PlanWithin F plan := by
      refine forall_mem_append.mpr ⟨hplans, fun plan hplan p hp => ?_⟩
      split at hplan
      · obtain rfl := mem_singleton.mp hplan
        obtain rfl := mem_singleton.mp hp
        exact hsite
      · obtain ⟨c, hc, rfl⟩ := mem_map.mp hplan
        obtain rfl | hp := mem_cons.mp hp
        · exact hchained _ hc
        · obtain rfl := mem_singleton.mp hp
          exact hsite
    exact meets_ite (fun _ => meets_pure hmore) fun _ => ih hmore hrest

lemma meets_callerPlans (hF : F.Sound) (sink : RequestSink) :
    (callerPlans sink).Meets F (some 0) fun ps => ∀ p ∈ ps, PlanWithin F p := by
  refine .bind_facts ?_
  dsimp only
  split
  · exact meets_pure (by simp)
  next dep hdep =>
    obtain ⟨a, -, hdep⟩ := exists_of_findSome?_eq_some hdep
    have hdep : F.Has dep.function := by
      split at hdep
      · exact (Dependencies.Within.through hF Dependencies.rounds ⟨Table.all_empty⟩ _).found.get? hdep
      · cases hdep
    refine .bind (meets_callSites hF hdep) fun sites hsites => ?_
    refine .bind (meets_plansFor hF dep _ _ (by simp) hsites) fun plans hplans => ?_
    exact meets_pure fun p hp => hplans p (mem_of_mem_take hp)

lemma meets_withPlan {α : Type} {Q : α → Prop} {x : Engine α} {least : Option Nat} (hx : x.Meets F least Q)
    {plan : List PlannedCall} (hplan : PlanWithin F plan) : (withPlan plan x).Meets F least Q := by
  induction plan with
  | nil => exact hx
  | cons p rest ih =>
    obtain ⟨hp, hrest⟩ := forall_mem_cons.mp hplan
    exact meets_withCall hp (ih hrest)

lemma meets_sinkRecords (hF : F.Sound) (hsink : sink.Within F) : (sinkRecords sink).Meets F (some 0) fun _ => True := by
  refine .bind (meets_callerPlans hF sink) fun plans hplans => ?_
  refine .bind (meets_mapM fun plan hplan =>
    meets_withPlan (meets_sinkRecordsHere hF hsink true) (hplans plan hplan)) fun _ _ => ?_
  exact meets_ite (fun _ => meets_sinkRecordsHere hF hsink false) fun _ => meets_done

lemma meets_allRecords (hF : F.Sound) : allRecords.Meets F (some 0) fun _ => True := by
  refine .bind_model ?_
  refine .bind (meets_mapM (Q := fun _ => True) fun n hn => ?_) fun _ _ => meets_done
  refine .bind (meets_requestSink? hF (hF.model.nodes n hn)) fun found hfound => ?_
  split
  · exact meets_sinkRecords hF (hfound _ rfl)
  · exact meets_done

end ScriptAudit
