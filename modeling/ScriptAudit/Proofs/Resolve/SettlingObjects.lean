import ScriptAudit.Proofs.Resolve.Settling

/-!
# The rules give the objects, arrays and functions that the program settles

The first object that is found keeps its place: whatever comes later only adds properties after its
own.
-/

namespace ScriptAudit

open Ask Engine Facts List Memory Option ScriptAudit.Frame Shape

variable {F : Facts} {frames : List Frame} {s : Session} {n : Node} {depth : Nat} {shape : Option Shape}
  {value : Option Node} {targets : List (Node × Nat)} {f : Node → Option Shape}

/-- A shape that was found is kept if what comes later returns the same reference. -/
lemma Engine.YieldsShape.kept {x : Engine (Option ShapeRef)} {next : Option ShapeRef → Engine (Option ShapeRef)}
    {shape : Shape} (h : x.YieldsShape F frames (some shape))
    (keeps : ∀ ref s, (next (some ref)).Tells F s fun r _ => r = some ref) :
    (x >>= next).YieldsShape F frames (some shape) := by
  intro s hs
  refine .bind (h s hs) fun r t _ hshows => ?_
  obtain ⟨ref, wider, rfl, -⟩ := shows_some_iff.mp hshows
  refine (keeps ref t).mono ?_
  rintro _ u hu rfl
  exact hshows.widen hu.memory

namespace Ask

lemma tells_gatherShapes_some (nodes : List Node) (depth : Nat) (ref : ShapeRef) :
    (gatherShapes nodes depth (some ref)).Tells F s fun r _ => r = some ref := by
  unfold gatherShapes
  induction nodes generalizing s with
  | nil => exact tells_pure rfl
  | cons n rest ih =>
    refine .bind (.bind (tells_ask _) fun cand _ _ _ => tells_gather_some ref cand) ?_
    rintro _ t - rfl
    exact ih

lemma yieldsShape_gatherShapes {nodes : List Node} (h : F.HasFirst frames nodes shape) (depth : Nat) :
    (gatherShapes nodes depth none).YieldsShape F frames (shape.map copy) := by
  induction nodes with
  | nil =>
    cases h
    exact yieldsShape_none
  | cons e rest ih =>
    cases h with
    | here hshape =>
      refine YieldsShape.kept (fun s hs => ?_) fun ref _ => tells_gatherShapes_some rest depth ref
      exact .bind (yields_askObject hshape depth s hs) fun _ t _ hshows => tells_gather_none hshows
    | later hnone hrest =>
      have hask := (yields_askObject hnone depth).yields
      exact Yields.bindShape (Yields.bind hask (yields_pure none)) (ih hrest)

lemma tells_addAssigned_some (b : Binding) (ref : ShapeRef) :
    (addAssigned b (some ref)).Tells F s fun r _ => r = some ref := by
  refine Yields.bindTells yielding.model rfl fun t _ => ?_
  dsimp only
  split
  · exact tells_pure rfl
  · have hfound : (shapeOrNew (some ref) { origin := b.initial }).Tells F t fun r _ => r = ref := tells_pure rfl
    refine .bind hfound ?_
    rintro _ u - rfl
    refine .bind (tells_changeShape _ fun shape => ⟨?_, fun _ h => h⟩) fun _ _ _ _ => tells_pure rfl
    exact Shape.Gains.entries_insertNews _ _

lemma yieldsShape_addAssigned_none (b : Binding) :
    (addAssigned b none).YieldsShape F frames (b.assignedShape? F.model) := by
  refine Yields.bindShape yielding.model ?_
  unfold Binding.assignedShape?
  by_cases hempty : (F.model.memberAssignments b).isEmpty = true
  · simp only [hempty, if_true]
    exact yieldsShape_none
  · simp only [hempty]
    intro s hs
    have hnew : (shapeOrNew none { origin := b.initial }).Tells F s fun ref t =>
        t.shapes[ref]? = some { origin := b.initial } := tells_newShape _
    refine .bind hnew fun ref t _ href => ?_
    refine .bind (tells_changeShape_at href fun shape => ⟨?_, fun _ h => h⟩) fun _ u _ hu => ?_
    · exact Shape.Gains.entries_insertNews _ _
    · exact tells_pure ⟨_, hu, .refl _⟩

lemma yieldsShape_object {found : Option Node} (h : ∀ e, found = some e → F.HasShape frames e (f e)) (depth : Nat) :
    (object found depth).YieldsShape F frames (found.bind f) := by
  cases found with
  | none => exact yieldsShape_none
  | some e => exact yields_askObject (h e rfl) depth

end Ask

lemma Facts.HasDeclared.yieldsShape_declaredShape {b : Binding} (h : F.HasDeclared frames b shape) (depth : Nat) :
    (declaredShape b depth).YieldsShape F frames shape := by
  have hnone (hinit : b.sort.isVariable = true → b.initial = none) :
      (if b.sort.isVariable then b.initial else none) = none := by
    split
    next hsort => exact hinit hsort
    · rfl
  unfold declaredShape
  cases h with
  | initial hsort hinit hshape =>
    simp only [hsort, if_true, hinit]
    exact yields_askObject hshape _
  | picked f hinit hsrc hkey hwhole hkeyed hval =>
    simp only [hnone hinit, hsrc, hkey]
    exact Yields.bindShape (yields_objectProperty hwhole hkeyed _) (yieldsShape_object hval _)
  | bare hinit hparam hkey =>
    simp only [hnone hinit, hkey, hparam]
    split
    · contradiction
    · exact yieldsShape_none

namespace Ask

section Named

variable {b : Binding} (hb : F.model.binding? n = some b)
include hb

lemma yieldsShape_identifierShape (hbound : bound? frames b = none) {shape : Shape}
    (h : F.HasDeclared frames b (some shape)) : (identifierShape n depth).YieldsShape F frames (some shape) := by
  refine Yields.bindShape yielding.model ?_
  simp only [hb]
  refine Yields.bindShape (yields_bound hbound) ((h.yieldsShape_declaredShape depth).kept fun ref _ => ?_)
  refine .bind (tells_gatherShapes_some _ _ ref) ?_
  rintro _ u - rfl
  exact tells_addAssigned_some b ref

lemma yieldsShape_identifierShape_written (hbound : bound? frames b = none) (h : F.HasDeclared frames b none)
    {shape : Shape} (hwrote : F.HasFirst frames (b.violations.filterMap assignedValue?) (some shape)) :
    (identifierShape n depth).YieldsShape F frames (some shape.copy) := by
  refine Yields.bindShape yielding.model ?_
  simp only [hb]
  refine Yields.bindShape (yields_bound hbound) ?_
  refine Yields.bindShape (h.yieldsShape_declaredShape depth).yields ?_
  exact (yieldsShape_gatherShapes hwrote _).kept fun ref _ => tells_addAssigned_some b ref

lemma yieldsShape_identifierShape_assigned (hbound : bound? frames b = none)
    (h : F.HasDeclared frames b none) (hwrote : F.HasFirst frames (b.violations.filterMap assignedValue?) none) :
    (identifierShape n depth).YieldsShape F frames (b.assignedShape? F.model) := by
  refine Yields.bindShape yielding.model ?_
  simp only [hb]
  refine Yields.bindShape (yields_bound hbound) ?_
  refine Yields.bindShape (h.yieldsShape_declaredShape depth).yields ?_
  have hgathered : (gatherShapes (b.violations.filterMap assignedValue?) (depth + 1) none).YieldsShape F
      frames none := yieldsShape_gatherShapes hwrote _
  exact Yields.bindShape hgathered.yields (yieldsShape_addAssigned_none b)

lemma yieldsShape_identifierShape_passed {index : Nat} {passed : Passed}
    (hbound : bound? frames b = some (index, passed)) (htaken : F.HasTaken (frames.take index) passed value)
    (h : ∀ e, value = some e → F.HasShape (frames.take index) e (f e)) :
    (identifierShape n depth).YieldsShape F frames (value.bind f) := by
  refine Yields.bindShape yielding.model ?_
  simp only [hb]
  refine Yields.bindShape (yields_bound hbound) (yieldsShape_underOuter fun s hs => ?_)
  cases htaken with
  | whole => exact .bind (yields_askObject (h _ rfl) _ s hs) fun _ _ _ hshows => tells_pure hshows
  | part hshape hkeyed =>
    refine .bind (yields_askObject hshape _ s hs) fun ref t ht hshows => ?_
    refine .bind (tells_propertyOf? hshows hkeyed) ?_
    rintro _ u hu rfl
    exact yieldsShape_object h _ u (hu.frames.trans (ht.frames.trans hs))

end Named

lemma yieldsShape_globalShape {name : String} (h : F.HasFirst frames (F.definitions name) shape) :
    (globalShape name depth).YieldsShape F frames (shape.map copy) := by
  have hgathered := yieldsShape_gatherShapes h (depth + 1)
  refine Yields.bindShape yielding.globals ?_
  unfold definitions at hgathered
  cases hg : F.globals with
  | none =>
    rw [hg] at hgathered
    exact hgathered
  | some g =>
    rw [hg] at hgathered
    exact hgathered

lemma yieldsShape_identifierShape_global {name : String} (hb : F.model.binding? n = none)
    (hname : n.name = some name) (h : F.HasFirst frames (F.definitions name) shape) :
    (identifierShape n depth).YieldsShape F frames (shape.map copy) := by
  refine Yields.bindShape yielding.model ?_
  simp only [hb]
  exact Yields.bindShape (yielding.nameOf hname) (yieldsShape_globalShape h)

lemma yieldsShape_firstShape {nodes : List Node} (h : F.HasFirst frames nodes shape) (depth : Nat) :
    (firstShape depth nodes).YieldsShape F frames shape := by
  induction nodes with
  | nil =>
    cases h
    exact yieldsShape_none
  | cons e rest ih =>
    cases h with
    | here hshape => exact (yields_askObject hshape depth).kept fun _ _ => tells_pure rfl
    | later hnone hrest => exact Yields.bindShape (yields_askObject hnone depth).yields (ih hrest)

section Member

variable {object : Node} {name : String} (hname : n.memberName? = some name)
  (hobj : n.child? .object = some object)
include hname hobj

lemma yieldsShape_memberShape_global {g : String} (hglo : F.globalMember? n = some g)
    (h : F.HasFirst frames (F.definitions g) shape) : (memberShape n depth).YieldsShape F frames (shape.map copy) := by
  unfold globalMember? at hglo
  refine Yields.bindShape yielding.facts ?_
  simp only [hname, hobj, hglo]
  exact yieldsShape_globalShape h

variable (hglo : F.globalMember? n = none) (hthis : object.kind ≠ .thisExpression)
include hglo hthis

lemma yieldsShape_memberShape {whole : Shape} {value : Node} (hwhole : F.HasShape frames object (some whole))
    (hkey : whole.properties.get? name = some value) (h : F.HasShape frames value shape) :
    (memberShape n depth).YieldsShape F frames shape := by
  unfold globalMember? at hglo
  refine Yields.bindShape yielding.facts ?_
  simp only [hname, hobj, hglo, beq_iff_eq, hthis, if_false]
  exact Yields.bindShape (yields_objectProperty hwhole (.own hkey) _) (yields_askObject h _)

lemma yieldsShape_memberShape_assigned (hwhole : F.HasShape frames object none)
    (h : F.HasFirst frames (F.model.assignedMembers object name) shape) :
    (memberShape n depth).YieldsShape F frames shape := by
  unfold globalMember? at hglo
  refine Yields.bindShape yielding.facts ?_
  simp only [hname, hobj, hglo, beq_iff_eq, hthis, if_false]
  exact Yields.bindShape (yields_objectProperty hwhole .missing _) (yieldsShape_firstShape h _)

end Member

/-! ### Objects that calls return -/

def gatherReturned (call : Node) (depth : Nat) (found : Option ShapeRef) (target : Node × Nat) :
    Engine (Option ShapeRef) := do
  if ← isBound target.1 then return found
  withCall target.1 call target.2 (gatherShapes (Model.returnsOf target.1) (depth + 1) found)

lemma tells_gatherReturned_some (targets : List (Node × Nat)) (ref : ShapeRef) :
    (targets.foldlM (gatherReturned n depth) (some ref)).Tells F s fun r _ => r = some ref := by
  induction targets generalizing s with
  | nil => exact tells_pure rfl
  | cons t rest ih =>
    have hstep : (gatherReturned n depth (some ref) t).Tells F s fun r _ => r = some ref := by
      refine Yields.bindTells (yields_isBound t.1) rfl fun u _ => ?_
      split
      · exact tells_pure rfl
      · exact tells_withCall (Q := fun r _ => r = some ref) (tells_gatherShapes_some _ _ ref)
    refine .bind hstep ?_
    rintro _ u - rfl
    exact ih

lemma yieldsShape_gatherReturned (h : F.HasFirstReturned frames n targets shape) :
    (targets.foldlM (gatherReturned n depth) none).YieldsShape F frames (shape.map copy) := by
  have hstep {t : Node × Nat} {found : Option Shape} (hfree : frames.any (·.function == t.1) = false)
      (hfirst : F.HasFirst (frames ++ [ofCall F.model t.1 n t.2]) (Model.returnsOf t.1) found) :
      (gatherReturned n depth none t).YieldsShape F frames (found.map copy) := by
    refine Yields.bindShape (yields_isBound t.1) ?_
    simp only [hfree]
    exact yieldsShape_withCall (yieldsShape_gatherShapes hfirst _)
  induction targets with
  | nil =>
    cases h
    exact yieldsShape_none
  | cons t rest ih =>
    cases h with
    | gone hbound hrest =>
      have hskip : (gatherReturned n depth none t).Yields F frames none := by
        refine .bind (yields_isBound t.1) ?_
        simp only [hbound, if_true]
        exact yields_pure none
      exact Yields.bindShape hskip (ih hrest)
    | later hfree hnone hrest =>
      have hskip : (gatherReturned n depth none t).YieldsShape F frames none := hstep hfree hnone
      exact Yields.bindShape hskip.yields (ih hrest)
    | here hfree hfirst => exact (hstep hfree hfirst).kept fun ref _ => tells_gatherReturned_some rest ref

lemma yields_mergedShape_none
    (h : n.copiesMembers = true → ∀ a ∈ mergeArguments (n.list .arguments), F.HasShape frames a none) :
    (mergedShape n depth).Yields F frames none := by
  unfold mergedShape
  by_cases hcopies : n.copiesMembers = true
  · have hnone := h hcopies
    unfold Node.copiesMembers at hcopies
    simp only [hcopies, Bool.not_true, Bool.false_or]
    split
    · exact yields_pure none
    · refine .bind (yielding.foldlM (g := fun found _ => found) fun found a ha => ?_) ?_
      · exact .bind (yields_askObject (hnone a ha) _).yields (yields_pure found)
      · rw [foldl_fixed]
        exact yields_pure none
  · unfold Node.copiesMembers at hcopies
    simp only [hcopies]
    exact yields_pure none

lemma yieldsShape_callShape
    (hcopies : n.copiesMembers = true → ∀ a ∈ mergeArguments (n.list .arguments), F.HasShape frames a none)
    (htargets : F.HasTargets frames n targets) (h : F.HasFirstReturned frames n targets shape) :
    (callShape n depth).YieldsShape F frames (shape.map copy) := by
  refine Yields.bindShape (yields_mergedShape_none hcopies) ?_
  exact Yields.bindShape (yields_callTargets htargets _) (yieldsShape_gatherReturned h)

end Ask

lemma Facts.HasShape.yields_rule (h : F.HasShape frames n shape) (depth : Nat) :
    ((objectRule n depth).getD (pure none)).YieldsShape F frames shape := by
  cases h with try simp only [objectRule, ‹n.kind = _›, getD_some]
  | shapeless hnone =>
    rw [hnone]
    exact yieldsShape_none
  | literal f hkind hspread hkeys =>
    have hprops : ((n.list .properties).foldlM (fun shape p => addProperty shape p depth)
        { origin := some n }).Yields F frames (n.shapeWith f) := by
      refine yielding.literalProperties (fun p hp hkind => ?_) fun p hp hname hcomp e he => ?_
      · cases harg : p.child? .argument with
        | none => exact yields_pure none
        | some e => exact (yields_askObject (hspread p hp hkind e harg) _).yields
      · exact yields_askValues (hkeys p hp hname hcomp e he) _
    intro s hs
    refine hprops.bindTells hs fun t _ => ?_
    exact .bind (tells_newShape _) fun ref u _ href => tells_pure ⟨_, href, .refl _⟩
  | declared hkind hb hbound hdecl => exact yieldsShape_identifierShape hb hbound hdecl
  | written hkind hb hbound hdecl hwrote => exact yieldsShape_identifierShape_written hb hbound hdecl hwrote
  | assigned hkind hb hbound hdecl hwrote =>
    exact yieldsShape_identifierShape_assigned hb hbound hdecl hwrote
  | passed f hkind hb hbound htaken hshape => exact yieldsShape_identifierShape_passed hb hbound htaken hshape
  | global hkind hb hname hfirst => exact yieldsShape_identifierShape_global hb hname hfirst
  | globalMember hkind hname hobj hglo hfirst => exact yieldsShape_memberShape_global hname hobj hglo hfirst
  | member hkind hname hobj hglo hthis hwhole hkey hshape =>
    exact yieldsShape_memberShape hname hobj hglo hthis hwhole hkey hshape
  | assignedMember hkind hname hobj hglo hthis hwhole hfirst =>
    exact yieldsShape_memberShape_assigned hname hobj hglo hthis hwhole hfirst
  | computed hkind hname =>
    refine Yields.bindShape yielding.facts ?_
    simp only [hname]
    exact yieldsShape_none
  | assignment f hkind hright => exact yieldsShape_object hright _
  | sequence f hkind hlast => exact yieldsShape_object hlast _
  | branches hkind hfirst =>
    obtain hkind | hkind := Kind.eq_of_isBranching hkind
    all_goals
      simp only [objectRule, hkind, getD_some]
      exact yieldsShape_gatherShapes hfirst _
  | returned hkind hcopies htargets hfirst => exact yieldsShape_callShape hcopies htargets hfirst

namespace Ask

variable {f : Node → Option (List Node)}

lemma yields_array {found : Option Node} (h : ∀ e, found = some e → F.HasElements frames e (f e)) (depth : Nat) :
    (array found depth).Yields F frames (found.bind f) := by
  cases found with
  | none => exact yields_pure none
  | some e => exact yields_askArray (h e rfl) depth

lemma yields_gatherElements {nodes : List Node} (h : ∀ e ∈ nodes, F.HasElements frames e (f e)) (depth : Nat) :
    (gatherElements nodes depth).Yields F frames (nodes.foldl (fun found e => appendElements found (f e)) none) :=
  yielding.foldlM fun _ e he => .bind (yields_askArray (h e he) depth) (yields_pure _)

lemma yields_firstElements {nodes : List Node} (h : ∀ e ∈ nodes, F.HasElements frames e (f e)) (depth : Nat) :
    (firstElements depth nodes).Yields F frames (nodes.findSome? f) := by
  induction nodes with
  | nil => exact yields_pure none
  | cons e rest ih =>
    obtain ⟨he, hrest⟩ := forall_mem_cons.mp h
    refine .bind (yields_askArray he depth) ?_
    rw [List.findSome?_cons]
    cases f e with
    | none => exact ih hrest
    | some es => exact yields_pure _

lemma yields_literalElements
    (h : ∀ e ∈ n.list .elements, e.kind = .spreadElement → ∀ a, e.child? .argument = some a →
      F.HasElements frames a (f a)) :
    (literalElements n depth).Yields F frames (some ((n.list .elements).flatMap (Node.spreadOut f))) := by
  refine .bind (yielding.mapM fun e he => ?_) (yields_pure _)
  unfold Node.spreadOut
  split
  next hspread => exact .bind (yields_array (h e he (eq_of_beq hspread)) _) (yields_pure _)
  · exact yields_pure _

lemma yields_declaredElements {b : Binding} (hparam : b.isParam = false)
    (h : ∀ e, b.sort.isVariable = true → b.initial = some e → F.HasElements frames e (f e)) :
    (declaredElements b depth).Yields F frames (if b.sort.isVariable then b.initial.bind f else none) := by
  unfold declaredElements
  cases hinit : b.initial with
  | none =>
    simp only [hparam, bind_none, ite_self]
    exact yields_pure none
  | some value =>
    by_cases hsort : b.sort.isVariable = true
    · simp only [hsort, if_true]
      exact yields_askArray (h value hsort hinit) _
    · simp only [hsort, hparam]
      exact yields_pure none

lemma yields_concatenatedElements {receiver : Node} {arguments : List Node} {base : Option (List Node)}
    (hrecv : F.HasElements frames receiver base) (h : base ≠ none → ∀ a ∈ arguments, F.HasElements frames a (f a)) :
    (concatenatedElements (some receiver) arguments depth).Yields F frames
      (base.map fun es => es ++ arguments.flatMap fun a => (f a).getD [a]) := by
  refine .bind (yields_askArray hrecv _) ?_
  cases base with
  | none => exact yields_pure none
  | some es =>
    refine .bind (yielding.mapM fun a ha => ?_) (yields_pure _)
    exact .bind (yields_askArray (h nofun a ha) _) (yields_pure _)

lemma yields_splitElements {receiver : Node} {texts : List String} (h : F.HasTexts frames receiver texts)
    (sep : Option String) :
    (splitElements (some receiver) sep depth).Yields F frames (splitPieces sep texts) := by
  unfold splitElements splitPieces
  cases sep with
  | none => exact yields_pure none
  | some sep =>
    refine .bind (yields_askValues h _) ?_
    cases texts.head? with
    | none => exact yields_pure none
    | some s => exact yields_pure _

end Ask

lemma Facts.HasElements.yields_rule {elements : Option (List Node)} (h : F.HasElements frames n elements)
    (depth : Nat) : ((arrayRule n depth).getD (pure none)).Yields F frames elements := by
  cases h with try simp only [arrayRule, ‹n.kind = _›, getD_some]
  | elementless hnone =>
    rw [hnone]
    exact yields_pure none
  | literal f hkind hparts => exact yields_literalElements hparts
  | named f hkind hb hbound hparam hinit =>
    refine .bind yielding.facts ?_
    simp only [hb]
    refine .bind (yields_bound hbound) ?_
    exact .bind (yields_declaredElements hparam hinit) (yields_pure _)
  | passed f hkind hb hbound htaken hval =>
    refine .bind yielding.facts ?_
    simp only [hb]
    refine .bind (yields_bound hbound) (yields_underOuter ?_)
    exact .bind (htaken.yields_takenFrom _) (yields_array hval _)
  | @global _ _ name f hkind hb hname hparts =>
    refine .bind yielding.facts ?_
    simp only [hb]
    cases hg : F.globals with
    | none =>
      rw [definitions_eq_nil fun g h => by simp [hg] at h]
      exact yields_pure none
    | some g =>
      refine .bind (yielding.nameOf hname) ?_
      unfold definitions at hparts ⊢
      rw [hg] at hparts ⊢
      exact yields_firstElements hparts _
  | member f hkind hname hobj hshape hkeyed hval =>
    unfold memberElements
    simp only [hname, hobj]
    exact .bind (yields_objectProperty hshape hkeyed _) (yields_array hval _)
  | computed hkind hname =>
    unfold memberElements
    simp only [hname]
    exact yields_pure none
  | branches f hkind hparts =>
    obtain hkind | hkind := Kind.eq_of_isBranching hkind
    all_goals
      simp only [arrayRule, hkind, getD_some]
      exact yields_gatherElements hparts _
  | appended f hkind hcal hname hobj hrecv hparts =>
    unfold callElements
    simp only [hcal, bind_some, hname, hobj]
    exact yields_concatenatedElements hrecv hparts
  | split hkind hcal hname hobj hargs hrecv =>
    unfold callElements
    simp only [hcal, bind_some, hname, hobj, hargs]
    exact yields_splitElements hrecv _
  | returned f hkind hconcat hsplit htargets hparts =>
    unfold callElements
    dsimp only
    split
    · contradiction
    next hname hargs =>
      rw [hsplit hname] at hargs
      cases hargs
    · refine yields_foldReturns htargets fun t ht hfree found r hr => ?_
      exact .bind (yields_askArray (hparts t ht hfree r hr) _) (yields_pure _)

namespace Ask

variable {f : Node → List Node} {object : Node} {b : Binding}

lemma yields_functions {found : Option Node} (h : ∀ e, found = some e → F.HasFunctions frames e (f e))
    (depth : Nat) : (functions found depth).Yields F frames ((found.map f).getD []) := by
  cases found with
  | none => exact yields_pure []
  | some e => exact yields_askFunctions (h e rfl) depth

lemma yields_propertyFunctions {key : String} (hshape : F.HasShape frames object shape)
    (hkeyed : Shape.Keyed shape key value) (h : ∀ e, value = some e → F.HasFunctions frames e (f e)) :
    (propertyFunctions (some object) key depth).Yields F frames ((value.map f).getD []) :=
  .bind (yields_objectProperty hshape hkeyed _) (yields_functions h _)

lemma yields_bindingFunctions {declared : List (List Node)} (hparam : b.isParam = false)
    (hdecl : (declaredFunctions b depth).Yields F frames declared)
    (h : ∀ e ∈ b.functionWrites F.limits, F.HasFunctions frames e (f e)) : (bindingFunctions b depth).Yields F frames
      (mergedFunctions F.limits (declared ++ (b.functionWrites F.limits).map f)) := by
  refine .bind hdecl (.bind yielding.limits ?_)
  refine .bind (yielding.mapM fun w hw => yields_askFunctions (h w hw) _) ?_
  simp only [hparam, Bool.false_and]
  exact yielding.mergeFunctions _

lemma yields_declaredFunctions (hkey : b.initial = none → b.key = none)
    (h : ∀ e, b.initial = some e → F.HasFunctions frames e (f e)) :
    (declaredFunctions b depth).Yields F frames (b.initial.toList.map f) := by
  unfold declaredFunctions
  cases hinit : b.initial with
  | none =>
    simp only [hkey hinit]
    split
    · contradiction
    · exact yields_pure []
  | some value => exact .bind (yields_askFunctions (h value hinit) _) (yields_pure _)

lemma yields_identifierFunctions {fs : List Node} (hb : F.model.binding? n = some b)
    (hbound : bound? frames b = none) (hfun : b.sort ≠ .function) (hclass : b.sort ≠ .classDecl)
    (h : (bindingFunctions b depth).Yields F frames fs) : (identifierFunctions n depth).Yields F frames fs := by
  refine .bind yielding.facts ?_
  simp only [hb]
  refine .bind (yields_bound hbound) ?_
  cases hsort : b.sort with
  | function => exact absurd hsort hfun
  | classDecl => exact absurd hsort hclass
  | _ => exact h

lemma yields_computedFunctions {key : Node} {names : List String} {value : String → Option Node}
    (hobj : n.child? .object = some object) (hkey : n.child? .property = some key)
    (hnames : F.HasTexts frames key names) (hshape : F.HasShape frames object shape)
    (hkeyed : ∀ name ∈ names, Shape.Keyed shape name (value name))
    (h : ∀ name ∈ names, ∀ e, value name = some e → F.HasFunctions frames e (f e)) :
    (computedFunctions n depth).Yields F frames (mergedFunctions F.limits
      (names.map fun name => ((value name).map f).getD [])) := by
  unfold computedFunctions
  rw [hobj, hkey]
  refine .bind (yields_askValues hnames _) ?_
  cases shape with
  | none =>
    refine .bind (yields_askObject hshape _).yields ?_
    have hnil : mergedFunctions F.limits (names.map fun name => ((value name).map f).getD []) = [] := by
      rw [mergedFunctions, flatten_eq_nil_iff.mpr fun group hgroup => ?_]
      · exact take_nil
      obtain ⟨name, hname, rfl⟩ := mem_map.mp hgroup
      have hmissing := hkeyed name hname
      generalize value name = found at hmissing
      cases hmissing
      rfl
    rw [hnil]
    exact yields_pure []
  | some shape =>
    intro s hs
    refine .bind (yields_askObject hshape _ s hs) fun r t ht hshows => ?_
    obtain ⟨ref, wider, rfl, -⟩ := shows_some_iff.mp hshows
    have hJ := judges_widened (F := F) t
    refine hJ.bind (hJ.mapM fun name hname u hu => ?_) (hJ.mergeFunctions _) t (.refl t)
    refine .bind (tells_propertyOf? (hshows.widen hu.memory) (hkeyed name hname)) ?_
    rintro _ v hv rfl
    exact yields_functions (h name hname) _ v (hv.frames.trans (hu.frames.trans (ht.frames.trans hs)))

lemma yields_objectFunctions {name : String} (hnew : ∀ t ∈ instanceSources F.model object, t.kind ≠ .newExpression)
    (hshape : F.HasShape frames object shape)
    (hkeyed : Shape.Keyed shape name value) (hval : ∀ e, value = some e → F.HasFunctions frames e (f e))
    (hassigned : ∀ e ∈ F.model.assignedMembers object name, F.HasFunctions frames e (f e)) :
    (objectFunctions object name depth).Yields F frames (mergedFunctions F.limits
      ((value.map f).getD [] :: (F.model.assignedMembers object name).map f ++
        (instanceSources F.model object).map (staticMembers · name))) := by
  have hinst : ((instanceSources F.model object).mapM (instanceFunctions name depth)).Yields F frames
      ((instanceSources F.model object).map fun t => [staticMembers t name]) := by
    refine yielding.mapM fun t ht => ?_
    refine .bind yielding.model ?_
    simp only [beq_iff_eq, hnew t ht, if_false]
    exact yields_pure _
  refine .bind yielding.model (.bind (yields_propertyFunctions hshape hkeyed hval) ?_)
  refine .bind (yielding.mapM fun e he => yields_askFunctions (hassigned e he) _) ?_
  refine .bind hinst ?_
  rw [← flatMap_def, ← map_eq_flatMap]
  exact yielding.mergeFunctions _

end Ask

lemma Facts.HasFunctions.yields_rule {fs : List Node} (h : F.HasFunctions frames n fs)
    (depth : Nat) : ((functionsRule n depth).getD (pure [])).Yields F frames fs := by
  cases h with try simp only [functionsRule, ‹n.kind = _›, getD_some]
  | functionless hnone =>
    rw [hnone]
    exact yields_pure []
  | itself hself =>
    rw [hself]
    exact yields_pure _
  | declared hkind hb hbound hsort =>
    refine .bind yielding.facts ?_
    simp only [hb]
    refine .bind (yields_bound hbound) ?_
    obtain hsort | hsort := hsort
    · simp only [hsort]
      exact yields_pure _
    · simp only [hsort]
      exact yields_pure _
  | @named _ _ b f hkind hb hbound hparam hfun hclass hkey hparts =>
    refine yields_identifierFunctions hb hbound hfun hclass ?_
    rw [Binding.functionValues, map_append]
    refine yields_bindingFunctions hparam (yields_declaredFunctions hkey fun e he => hparts e ?_)
      fun e he => hparts e ?_
    · exact mem_append_left _ (Option.mem_toList.mpr he)
    · exact mem_append_right _ he
  | @picked _ _ source b key _ value f hkind hb hbound hparam hfun hclass hinit hsrc hkey hshape hkeyed
      hval hparts =>
    have hdecl : (declaredFunctions b depth).Yields F frames [(value.map f).getD []] := by
      unfold declaredFunctions
      simp only [hinit, hsrc, hkey]
      exact .bind (yields_propertyFunctions hshape hkeyed hval) (yields_pure _)
    exact yields_identifierFunctions hb hbound hfun hclass (yields_bindingFunctions hparam hdecl hparts)
  | passed f hkind hb hbound htaken hval =>
    refine .bind yielding.facts ?_
    simp only [hb]
    refine .bind (yields_bound hbound) (yields_underOuter ?_)
    exact .bind (htaken.yields_takenFrom _) (yields_functions hval _)
  | global f hkind hb hname hparts =>
    exact yielding.identifierFunctions_global hb hname fun e he => yields_askFunctions (hparts e he) _
  | @globalMember _ _ _ _ g f hkind hname hobj hglo hparts =>
    unfold globalMember? at hglo
    obtain ⟨globals, hglob, hmem⟩ := Option.bind_eq_some_iff.mp hglo
    have hlook : (F.globals.bind fun g => (g.globalMember? n).map g.lookup) = some (globals.lookup g) := by
      simp [hglob, hmem]
    refine .bind yielding.facts ?_
    simp only [hname, hobj, hlook]
    unfold definitions at hparts ⊢
    rw [hglob] at hparts ⊢
    exact yielding.functionsOfAny fun e he => yields_askFunctions (hparts e he) _
  | member f hkind hname hobj hglo hthis hprototype hnew hshape hkeyed hval hassigned =>
    have hlook : (F.globals.bind fun g => (g.globalMember? n).map g.lookup) = none := by
      unfold globalMember? at hglo
      cases hg : F.globals with
      | none => rfl
      | some g =>
        simp only [hg, bind_some] at hglo
        simp [hglo]
    refine .bind yielding.facts ?_
    simp only [hname, hobj, hlook, beq_iff_eq, hthis, hprototype]
    exact yields_objectFunctions hnew hshape hkeyed hval hassigned
  | computed value f hkind hname hobj hkey hnames hshape hkeyed hparts =>
    refine .bind yielding.facts ?_
    simp only [hname]
    exact yields_computedFunctions hobj hkey hnames hshape hkeyed hparts
  | branches f hkind hparts =>
    obtain hkind | hkind := Kind.eq_of_isBranching hkind
    all_goals
      simp only [functionsRule, hkind, getD_some]
      exact yielding.functionsOfAny fun e he => yields_askFunctions (hparts e he) _
  | assignment f hkind hright => exact yields_functions hright _
  | sequence f hkind hlast => exact yields_functions hlast _
  | adapted f hkind hcal hbind hobj =>
    unfold callFunctions
    simp only [hcal, hbind]
    exact yields_functions hobj _
  | returned f hkind hcal hbind htargets hparts =>
    unfold callFunctions
    simp only [hcal, hbind]
    refine .bind (yields_foldReturns htargets fun t ht hfree groups r hr => ?_) (yielding.mergeFunctions _)
    exact .bind (yields_askFunctions (hparts t ht hfree r hr) _) (yields_pure _)

end ScriptAudit
