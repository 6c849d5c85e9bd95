import ScriptAudit.Proofs.Engine.Steps
import ScriptAudit.Proofs.Resolve.Answers

/-!
# The steps of the rules of resolution

Apart from its searches for callers, a rule remembers owners and reads of globals, and puts shapes
together.
-/

namespace ScriptAudit

open Engine Memory

variable {known : Option Facts} {R : Memory → Memory → Prop}
variable {β : Type} (n : Option Node) (node : Node) (b : Binding) (name : String) (depth : Nat)

namespace Engine

@[simp] lemma steps_zip (columns : List (List String)) : (Engine.zip columns).StepsBy known R := by
  refine .bind steps_limits fun limits => ?_
  split <;> simp

@[simp] lemma steps_union (groups : List (List String)) : (Engine.union groups).StepsBy known R := by
  simp [Engine.union]

@[simp] lemma steps_visitProperties (ref : ShapeRef) {f : String → Node → Engine β}
    (hf : ∀ key value, (f key value).StepsBy known R) : (visitProperties ref f).StepsBy known R := by
  simp [visitProperties, hf]

end Engine

namespace Ask

@[simp] lemma steps_values : (values n depth).StepsBy known R := by cases n <;> simp [values]

@[simp] lemma steps_property : (property n name depth).StepsBy known R := by cases n <;> simp [property]

@[simp] lemma steps_object : (object n depth).StepsBy known R := by cases n <;> simp [object]

@[simp] lemma steps_array : (array n depth).StepsBy known R := by cases n <;> simp [array]

@[simp] lemma steps_functions : (functions n depth).StepsBy known R := by cases n <;> simp [functions]

@[simp] lemma steps_argumentPaths (property : Option String) : (argumentPaths b property).StepsBy known R := by
  unfold argumentPaths
  split <;> simp

@[simp] lemma steps_columns (nodes : List Node) : (columns depth nodes).StepsBy known R := by
  induction nodes with
  | nil => exact steps_pure _
  | cons n rest ih => simp [columns, ih]

@[simp] lemma steps_templateColumns (quasis expressions : List Node) :
    (templateColumns depth quasis expressions).StepsBy known R := by
  induction quasis generalizing expressions with
  | nil => exact steps_pure _
  | cons q rest ih => cases expressions <;> simp [templateColumns, ih]

@[simp] lemma steps_firstShape (nodes : List Node) : (firstShape depth nodes).StepsBy known R := by
  induction nodes with
  | nil => exact steps_pure _
  | cons n rest ih => simp [firstShape, Option.forall, ih]

@[simp] lemma steps_gatherElements (nodes : List Node) : (gatherElements nodes depth).StepsBy known R :=
  steps_foldlM fun _ _ _ => by simp

@[simp] lemma steps_firstElements (nodes : List Node) : (firstElements depth nodes).StepsBy known R := by
  induction nodes with
  | nil => exact steps_pure _
  | cons n rest ih => simp [firstElements, Option.forall, ih]

@[simp] lemma steps_mergeFunctions (groups : List (List Node)) : (mergeFunctions groups).StepsBy known R := by
  simp [mergeFunctions]

@[simp] lemma steps_reached : (reached node).StepsBy known R := by simp [reached]

@[simp] lemma steps_thisMemberReads (o : Owner) : (thisMemberReads o name route).StepsBy known R := by
  simp [thisMemberReads]

@[simp] lemma steps_returnFlow : (returnFlow n route).StepsBy known R := by
  unfold returnFlow
  split <;> simp

@[simp] lemma steps_objectProperty : (objectProperty n name depth).StepsBy known R := by
  simp [objectProperty]

@[simp] lemma steps_callables : (callables n depth).StepsBy known R := by simp [callables]

@[simp] lemma steps_concatenated (parts : List Node) : (concatenated parts depth).StepsBy known R := by
  simp [Option.forall, concatenated]

@[simp] lemma steps_anyOf (nodes : List Node) : (anyOf nodes depth).StepsBy known R := by
  simp [anyOf]

@[simp] lemma steps_templateValues : (templateValues node depth).StepsBy known R := by
  simp [templateValues, Option.forall]

@[simp] lemma steps_declaredValues : (declaredValues b depth).StepsBy known R := by
  unfold declaredValues
  cases b.key <;> simp

@[simp] lemma steps_elementAt? : (elementAt? node name depth).StepsBy known R := by
  unfold elementAt?
  repeat' split
  all_goals simp [Option.forall]

@[simp] lemma steps_joinedValues (arguments : List Node) : (joinedValues n arguments depth).StepsBy known R := by
  repeat' first | (simp; done) | split | refine .bind (by simp) fun _ => ?_ | dsimp only

@[simp] lemma steps_replacedValues (pattern replacement : Node) (every : Bool) :
    (replacedValues n pattern replacement every depth).StepsBy known R := by
  unfold replacedValues
  split <;> simp

@[simp] lemma steps_addProperty (shape : Shape) : (addProperty shape node depth).StepsBy known R := by
  unfold addProperty
  repeat' split
  all_goals simp [Option.forall]

@[simp] lemma steps_passedShape (index : Nat) (passed : Passed) : (passedShape index passed depth).StepsBy known R := by
  unfold passedShape
  split <;> simp

@[simp] lemma steps_functionsOfAny (nodes : List Node) : (functionsOfAny nodes depth).StepsBy known R := by
  simp [functionsOfAny]

@[simp] lemma steps_computedFunctions : (computedFunctions node depth).StepsBy known R := by
  simp [Option.forall, computedFunctions]

@[simp] lemma steps_valueMemberReads : (valueMemberReads node name route).StepsBy known R := by
  simp [valueMemberReads]

@[simp] lemma steps_takenFrom (key : Option String) : (takenFrom node key depth).StepsBy known R := by
  cases key <;> simp [takenFrom]

@[simp] lemma steps_callTargets : (callTargets node depth).StepsBy known R := by
  unfold callTargets
  split <;> simp

@[simp] lemma steps_readPath (argument : Node) (keys : List String) :
    (readPath argument keys depth).StepsBy known R := by
  fun_induction readPath argument keys depth with
  | case1 => exact steps_ask _
  | case2 => exact steps_ask _
  | case3 argument key rest hrest ih => simp [Option.forall, ih]

@[simp] lemma steps_branchValues : (branchValues node depth).StepsBy known R := by
  unfold branchValues
  split <;> simp

@[simp] lemma steps_globalValues : (globalValues name depth).StepsBy known R := by simp [Option.forall, globalValues]

lemma steps_bindingValues {b : Binding} (hb : ∀ F, known = some F → F.Indexes b) :
    (bindingValues b depth).StepsBy known R := by
  unfold bindingValues
  repeat' split
  all_goals simp [Option.forall, passedValues, rewrittenValues, steps_paramValues hb]

@[simp] lemma steps_computedValues : (computedValues node depth).StepsBy known R := by
  simp [Option.forall, computedValues]

@[simp] lemma steps_methodCallValues (arguments : List Node) :
    (methodCallValues name n arguments depth).StepsBy known R := by
  unfold methodCallValues
  repeat' split
  all_goals simp

@[simp] lemma steps_memberElements : (memberElements node depth).StepsBy known R := by
  unfold memberElements
  split <;> simp

@[simp] lemma steps_propertyFunctions : (propertyFunctions n name depth).StepsBy known R := by
  simp [propertyFunctions]

@[simp] lemma steps_ownerMemberReads (o : Owner) : (ownerMemberReads o name route).StepsBy known R := by
  have hinst : (instances o).StepsBy known R := by
    refine .bind steps_model fun m => ?_
    split <;> simp
  simp [ownerMemberReads, hinst]

@[simp] lemma steps_itemReadsAt : (itemReadsAt node route).StepsBy known R := by
  refine .bind steps_facts fun facts => ?_
  dsimp only
  repeat' split
  all_goals simp

@[simp] lemma steps_foldReturns (start : β) {step : β → Node → Engine β}
    (h : ∀ acc returned, (step acc returned).StepsBy known R) :
    (foldReturns node depth start step).StepsBy known R := by
  refine .bind (steps_callTargets node _) fun targets => steps_foldlM fun acc target _ => ?_
  simp [h]

@[simp] lemma steps_readPaths (keys : List String) (matched : Option Node) (paths : List ArgumentPath) :
    (readPaths keys depth matched paths).StepsBy known R := by
  induction paths generalizing matched with
  | nil => exact steps_pure _
  | cons path rest ih => simp [readPaths, ih]

@[simp] lemma steps_identifierValues : (identifierValues node depth).StepsBy known R := by
  refine StepsBy.bind_model fun m hm => steps_ite.mpr ⟨fun _ => steps_pure _, fun _ => ?_⟩
  split
  next b hb => exact steps_bindingValues depth fun F hF => Facts.indexes_of_binding? (hm F hF ▸ hb)
  · simp

@[simp] lemma steps_memberValues : (memberValues node depth).StepsBy known R := by
  have hglo : (globalMemberValues node depth).StepsBy known R := by
    refine .bind steps_globals fun g => ?_
    split <;> simp
  unfold memberValues
  split <;> simp [hglo]

@[simp] lemma steps_identifierElements : (identifierElements node depth).StepsBy known R := by
  have hdecl (b : Binding) : (declaredElements b depth).StepsBy known R := by
    unfold declaredElements
    split <;> simp
  refine .bind steps_facts fun facts => ?_
  repeat' split
  all_goals simp [Option.forall, passedElements, hdecl]

@[simp] lemma steps_bindingFunctions : (bindingFunctions b depth).StepsBy known R := by
  have hdecl : (declaredFunctions b depth).StepsBy known R := by
    unfold declaredFunctions
    repeat' split
    all_goals simp
  have hsup : (suppliedFunctions b depth).StepsBy known R := by
    refine .bind (steps_argumentPaths b none) fun paths => steps_mapM fun path _ => ?_
    cases b.key <;> simp
  simp [bindingFunctions, hdecl, hsup]

@[simp] lemma steps_callValues : (callValues node depth).StepsBy known R := by
  have hglo (arguments : List Node) (name : String) : (globalCallValues name arguments depth).StepsBy known R := by
    unfold globalCallValues
    repeat' split
    all_goals simp
  unfold callValues
  repeat' split
  all_goals simp [hglo, returnedValues]

@[simp] lemma steps_callElements : (callElements node depth).StepsBy known R := by
  unfold callElements
  repeat' first | (simp; done) | dsimp only [splitElements] | split | refine .bind (by simp) fun _ => ?_

@[simp] lemma steps_identifierFunctions : (identifierFunctions node depth).StepsBy known R := by
  refine .bind steps_facts fun facts => ?_
  repeat' split
  all_goals simp [Option.forall, passedFunctions]

@[simp] lemma steps_callFunctions : (callFunctions node depth).StepsBy known R := by
  unfold callFunctions
  split <;> simp

lemma steps_valuesRule {rule : Engine (List String)} (h : valuesRule node depth = some rule) :
    rule.StepsBy known R := by
  unfold valuesRule at h
  split at h <;> cases h <;> simp

lemma steps_arrayRule {rule : Engine (Option (List Node))} (h : arrayRule node depth = some rule) :
    rule.StepsBy known R := by
  unfold arrayRule at h
  split at h <;> cases h
  · exact .bind (steps_mapM fun e _ => by simp) fun _ => steps_pure _
  all_goals simp

end Ask

variable [HasOwnChanges R]

namespace Ask

end Ask

namespace Owner

omit [HasOwnChanges R] in
@[simp] lemma steps_attachPrototype (o : Owner) : (attachPrototype o n).StepsBy known R := by
  have hctor (expr : Node) : (constructorFor o expr).StepsBy known R := by
    unfold constructorFor
    split <;> simp
  refine .bind steps_model fun m => ?_
  split <;> simp [hctor]

omit [HasOwnChanges R] in
@[simp] lemma steps_build (f : Node) : (build f).StepsBy known R := by
  refine .bind steps_model fun m => ?_
  repeat' split
  all_goals simp [ofLiteralMethod, ofPrototypeMethod, ofConstructor]

@[simp] lemma steps_ofFunction (f : Node) : (ofFunction f).StepsBy known R := by
  refine .bind steps_session fun s => ?_
  split
  · exact steps_pure _
  · refine .bind (steps_build f) fun o => .bind (fun m => ?_) fun _ => steps_pure _
    exact HasOwnChanges.owners m _

@[simp] lemma steps_ofInstances (f : Node) : (ofInstances f).StepsBy known R := by
  simp [ofInstances]

end Owner

namespace Ask

@[simp] lemma steps_instancePropertyValues : (instancePropertyValues node name depth).StepsBy known R := by
  refine .bind steps_model fun m => .bind (steps_callables ..) fun ctors => steps_foldlM fun found ctor _ => ?_
  simp

@[simp] lemma steps_thisPropertyValues : (thisPropertyValues node name depth).StepsBy known R := by
  refine .bind steps_model fun m => ?_
  split <;> simp

lemma steps_originPropertyValues {root : Option Binding} (hroot : ∀ F b, known = some F → root = some b → F.Indexes b) :
    (originPropertyValues node root name depth).StepsBy known R := by
  unfold originPropertyValues
  split
  · refine steps_ite.mpr ⟨fun _ => steps_paramValues (fun F hF => hroot F _ hF rfl) .., fun _ => ?_⟩
    split <;> simp
  · simp

@[simp] lemma steps_propertyValues : (propertyValues node name depth).StepsBy known R := by
  refine steps_ite.mpr ⟨fun _ => steps_thisPropertyValues node name depth, fun _ => ?_⟩
  refine StepsBy.bind_model fun m hm => .bind (steps_boundOf? _) fun bound => ?_
  have hroot (F : Facts) (b : Binding) (hF : known = some F) (hb : m.rootBinding? node = some b) : F.Indexes b :=
    Facts.indexes_of_rootBinding? (hm F hF ▸ hb)
  cases bound with
  | some bound =>
    obtain ⟨index, argument, key⟩ := bound
    cases key <;> simp [passedPropertyValues]
  | none =>
    refine .bind (steps_elementAt? node name depth) fun element => ?_
    cases element with
    | some element => exact steps_ask _
    | none => simp [definedPropertyValues, steps_originPropertyValues _ _ _ hroot]

@[simp] lemma steps_gatherShapes (nodes : List Node) (found : Option ShapeRef) :
    (gatherShapes nodes depth found).StepsBy known R := steps_foldlM fun _ _ _ => by simp

@[simp] lemma steps_literalShape : (literalShape node depth).StepsBy known R :=
  .bind (steps_foldlM fun shape p _ => steps_addProperty p depth shape) fun _ => by simp

@[simp] lemma steps_globalShape : (globalShape name depth).StepsBy known R := by simp [Option.forall, globalShape]

@[simp] lemma steps_declaredShape : (declaredShape b depth).StepsBy known R := by
  unfold declaredShape
  repeat' split
  all_goals simp [suppliedShape]

@[simp] lemma steps_addAssigned (found : Option ShapeRef) : (addAssigned b found).StepsBy known R := by
  refine .bind steps_model fun m => steps_ite.mpr ⟨fun _ => steps_pure _, fun _ => ?_⟩
  refine .bind (steps_shapeOrNew ..) fun ref => .bind ?_ fun _ => steps_pure _
  exact steps_changeShape ref fun shape => ⟨Shape.Gains.entries_insertNews _ shape.properties, fun _ h => h⟩

@[simp] lemma steps_identifierShape : (identifierShape node depth).StepsBy known R := by
  refine .bind steps_model fun m => ?_
  split <;> simp [Option.forall]

@[simp] lemma steps_memberShape : (memberShape node depth).StepsBy known R := by
  have hthis (this : Node) (name : String) : (thisMemberShape this name depth).StepsBy known R := by
    refine .bind steps_model fun m => ?_
    split <;> simp
  refine .bind steps_facts fun _ => ?_
  repeat' split
  all_goals simp [Option.forall, hthis]

@[simp] lemma steps_callShape : (callShape node depth).StepsBy known R := by
  simp [Option.forall, callShape, mergedShape]

@[simp] lemma steps_thisShape : (thisShape node depth).StepsBy known R := by
  repeat' first | (simp [Option.forall]; done) | split | refine .bind (by simp) fun _ => ?_

lemma steps_objectRule {rule : Engine (Option ShapeRef)} (h : objectRule node depth = some rule) :
    rule.StepsBy known R := by
  unfold objectRule at h
  split at h <;> cases h <;> simp

@[simp] lemma steps_objectFunctions : (objectFunctions node name depth).StepsBy known R := by
  simp [objectFunctions, instanceFunctions]

@[simp] lemma steps_memberFunctions : (memberFunctions node depth).StepsBy known R := by
  refine .bind steps_facts fun facts => ?_
  repeat' split
  all_goals simp [prototypeFunctions]

lemma steps_functionsRule {rule : Engine (List Node)} (h : functionsRule node depth = some rule) :
    rule.StepsBy known R := by
  unfold functionsRule at h
  split at h <;> cases h <;> simp

end Ask

@[simp] lemma steps_globalReads : (globalReads name).StepsBy known R := by
  refine .bind steps_session fun s => ?_
  split
  · exact steps_pure _
  · refine .bind steps_facts fun facts => .bind (fun m => ?_) fun _ => steps_pure _
    exact HasOwnChanges.reads m _

@[simp] lemma steps_globalMemberReads (member : String) : (globalMemberReads name member).StepsBy known R := by
  refine .bind steps_session fun s => ?_
  split
  · exact steps_pure _
  · refine .bind steps_model fun m => .bind (steps_globalReads name) fun nodes => ?_
    exact .bind (fun m => HasOwnChanges.reads m _) fun _ => steps_pure _

@[simp] lemma steps_globalAliases (route : Route) : (globalAliases name route).StepsBy known R := by
  simp [globalAliases]

namespace Ask

variable (route : Route)

lemma steps_designatedReads (object : Node) {designated : Engine (List Node)}
    (h : designated.StepsBy known R) : (designatedReads object name route designated).StepsBy known R := by
  refine .bind steps_facts fun facts => steps_ite.mpr ⟨fun _ => by simp, fun _ => ?_⟩
  refine steps_ite.mpr ⟨fun _ => by simp, fun _ => ?_⟩
  split
  · simp
  · refine steps_ite.mpr ⟨fun _ => ?_, fun _ => .bind h fun _ => steps_pure _⟩
    split <;> simp

@[simp] lemma steps_identifierDesignates : (identifierDesignates node).StepsBy known R := by
  refine .bind steps_facts fun facts => ?_
  repeat' split
  all_goals simp

@[simp] lemma steps_thisDesignates : (thisDesignates node).StepsBy known R := by
  refine .bind steps_model fun m => ?_
  split <;> simp

mutual

@[simp] lemma steps_designates : ∀ node : Node, (designates node).StepsBy known R
  | .mk h ls => by
      unfold designates
      dsimp only
      repeat' split
      all_goals simp [steps_objectMemberReads _ ls]

@[simp] lemma steps_objectMemberReads (name : String) : ∀ ls : List Link, (objectMemberReads name ls).StepsBy known R
  | [] => by
      exact steps_pure _
  | (f, some c) :: rest => by
      unfold objectMemberReads
      split
      · exact steps_designatedReads name .directName c (steps_designates c)
      · exact steps_objectMemberReads name rest
  | (f, none) :: rest => by
      exact steps_objectMemberReads name rest

end

@[simp] lemma steps_memberReads : (memberReads n name route).StepsBy known R := by
  unfold memberReads
  split <;> simp [steps_designatedReads]

@[simp] lemma steps_locationReads : (locationReads n route).StepsBy known R := by
  unfold locationReads
  split
  · exact steps_pure _
  · refine .bind steps_facts fun facts => ?_
    dsimp only
    repeat' split
    all_goals simp [prototypeMemberReads]

@[simp] lemma steps_itemReads : (itemReads node route).StepsBy known R := by
  have hpass : (passedContainers node).StepsBy known R := by
    refine .bind steps_model fun m => ?_
    split <;> simp
  simp [itemReads, hpass]

@[simp] lemma steps_callbackReads (call : Node) : (callbackReads node call route).StepsBy known R := by
  unfold callbackReads
  split <;> simp [containerReads]

@[simp] lemma steps_mergeReads (call : Node) : (mergeReads node call route).StepsBy known R := by
  unfold mergeReads
  dsimp only
  repeat' split
  all_goals simp

@[simp] lemma steps_propertyFlow (property : Node) : (propertyFlow node property route).StepsBy known R := by
  refine .bind steps_model fun m => ?_
  split <;> simp

@[simp] lemma steps_methodFlow (method : Node) : (methodFlow node method route).StepsBy known R := by
  refine .bind steps_model fun m => ?_
  repeat' split
  all_goals simp

@[simp] lemma steps_flowFrom (parent : Node) (field : Field) : (flowFrom node parent field route).StepsBy known R := by
  refine .bind steps_facts fun facts => ?_
  dsimp only
  repeat' split
  all_goals simp

@[simp] lemma steps_flowStep : (flowStep node route).StepsBy known R := by
  refine .bind steps_facts fun facts => ?_
  repeat' split
  all_goals simp

@[simp] lemma steps_follow (cap maxDepth : Nat) (fl : Flow) : (follow cap maxDepth fl).StepsBy known R := by
  fun_induction follow cap maxDepth fl with
  | case1 | case2 => exact steps_pure _
  | case3 fl a dist work hwork _ ih =>
    refine .bind (steps_flowStep ..) fun next => steps_ite.mpr ⟨fun _ => ?_, fun _ => ih next⟩
    exact .bind steps_truncate fun _ => steps_pure _

end Ask

end ScriptAudit
