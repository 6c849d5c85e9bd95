import ScriptAudit.Proofs.Resolve.Aliases

/-!
# Rules for objects, arrays and functions keep to the program

What the rules find are nodes of the program, apart from the pieces of a text that is split.
-/

namespace ScriptAudit.Ask

open Engine List Owner Table Facts

variable {F : Facts} {least depth : Nat} {n call m : Node} {b : Binding} {nodes : List Node} {passed : Passed}
  {receiver : Option Node}

lemma meets_gatherShapes (h : F.HasAll nodes) (found : Option ShapeRef) (hd : least < 2 * depth + 1) :
    (gatherShapes nodes depth found).Meets F least fun _ => True :=
  meets_foldlM trivial fun found _ n hn =>
    .bind (meets_askObject (h n hn) hd) fun ref _ => meets_gather found ref

lemma meets_addProperty {shape : Shape} (hshape : shape.Within F) {p : Node} (hp : F.Has p)
    (hd : least ≤ 2 * depth + 2) : (addProperty shape p depth).Meets F least (·.Within F) := by
  refine meets_ite (fun _ => ?_) fun _ => ?_
  · refine .bind (meets_object (hp.child? .argument) (by omega)) fun found _ => ?_
    split
    · exact .bind (meets_shapeAt _) fun other hother => meets_pure (within_merge hshape hother true)
    · exact meets_pure hshape
  · split
    · exact meets_pure hshape
    next value hval =>
      have hval := hp.child? .value value hval
      split
      · exact meets_pure ⟨hshape.properties.insert hval, hshape.origin⟩
      · refine meets_ite (fun _ => ?_) fun _ => meets_pure hshape
        refine .bind (meets_values (hp.child? .key) (by omega)) fun names _ => ?_
        refine meets_pure ⟨?_, hshape.origin⟩
        exact List.foldlRecOn names _ hshape.properties fun t ht name _ => ht.insert hval

lemma meets_literalShape (hn : F.Has n) (hd : least ≤ 2 * depth + 2) :
    (literalShape n depth).Meets F least fun _ => True := by
  refine .bind (meets_foldlM (Q := fun shape : Shape => shape.Within F) ?_
    fun shape hshape p hp => meets_addProperty hshape (hn.mem_list hp) hd) fun shape hshape => ?_
  · exact ⟨all_empty, hn.some⟩
  · exact (meets_newShape hshape).done

lemma meets_globalShape (hF : F.Sound) (name : String) (hd : least ≤ 2 * depth + 2) :
    (globalShape name depth).Meets F least fun _ => True := by
  refine .bind meets_globals fun globals hglob => ?_
  split
  next g =>
    refine meets_gatherShapes (fun n hn => ?_) none (by omega)
    obtain ⟨e, he, rfl⟩ := mem_map.mp hn
    exact (hF.globals g hglob.symm).mem_lookup he
  · exact meets_done

lemma meets_passedShape (index : Nat) (hpass : F.Has passed.argument) (hd : least ≤ 2 * depth + 2) :
    (passedShape index passed depth).Meets F least fun _ => True := by
  refine meets_underOuter (.bind (meets_askObject hpass (by omega)) fun shape _ => ?_)
  split
  · exact meets_done
  next key _ => exact .bind (meets_propertyOf? shape key) fun value hval => meets_object hval (by omega)

lemma meets_suppliedShape (hF : F.Sound) (hb : F.Declares b) (hd : least ≤ 2 * depth + 2) :
    (suppliedShape b depth).Meets F least fun _ => True := by
  refine .bind (meets_argumentPaths hF hb none) fun paths hpaths => ?_
  refine .bind (meets_foldlM (Q := fun _ => True) trivial fun found _ path hpath => ?_) fun found _ => ?_
  · refine .bind (meets_takenFrom (hpaths path hpath) b.key (by omega)) fun argument harg => ?_
    exact .bind (meets_object harg (by omega)) fun ref _ => meets_gather found ref
  · exact meets_gatherShapes (fun _ hn => MaybeHas.mem_toList hb.fallback hn) found (by omega)

lemma meets_declaredShape (hF : F.Sound) (hb : F.Declares b) (hd : least ≤ 2 * depth + 2) :
    (declaredShape b depth).Meets F least fun _ => True := by
  unfold declaredShape
  split
  next value hval =>
    refine meets_askObject ?_ (by omega)
    split at hval
    · exact hb.initial value hval
    · cases hval
  · split
    next source key hsrc _ =>
      have hsrc : F.Has source := hb.source source hsrc
      exact .bind (meets_objectProperty hsrc.some key (by omega)) fun value hval =>
        meets_object hval (by omega)
    · exact meets_ite (fun _ => meets_suppliedShape hF hb hd) fun _ => meets_done

lemma meets_addAssigned (hF : F.Sound) (hb : F.Declares b) (found : Option ShapeRef) :
    (addAssigned b found).Meets F least fun _ => True := by
  refine .bind_model ?_
  refine meets_ite (fun _ => meets_done) fun _ => ?_
  refine .bind (meets_shapeOrNew found ⟨all_empty, hb.initial⟩) fun ref _ => ?_
  refine .bind (meets_changeShape fun shape hshape => ⟨?_, hshape.origin⟩) fun _ _ => meets_done
  exact All.foldl hshape.properties (fun _ _ ht he => ht.insertNew he) hF.model.memberAssignments

lemma has_assignedValue? {w : Node} (hw : F.Has w) : F.MaybeHas (assignedValue? w) :=
  (hw.child? .right).ite

lemma meets_identifierShape (hF : F.Sound) (hn : F.Has n) (hkind : n.kind = .identifier)
    (hd : least ≤ 2 * depth + 2) : (identifierShape n depth).Meets F least fun _ => True := by
  refine .bind_model ?_
  split
  · exact .bind (meets_nameOf hn hkind) fun name _ => meets_globalShape hF name hd
  next b hb =>
    have hb := hF.model.binding? hb
    refine .bind (meets_bound b) fun bound hbound => ?_
    split
    next index passed => exact meets_passedShape index (hbound index passed rfl) hd
    · refine .bind (meets_declaredShape hF hb hd) fun declared _ => ?_
      refine .bind (meets_gatherShapes (fun n hn => ?_) declared (by omega)) fun written _ =>
        meets_addAssigned hF hb written
      obtain ⟨w, hw, hn⟩ := mem_filterMap.mp hn
      exact has_assignedValue? (hb.violations w hw) n hn

lemma meets_firstShape (h : F.HasAll nodes) (hd : least < 2 * depth + 1) :
    (firstShape depth nodes).Meets F least fun _ => True := by
  induction nodes with
  | nil => exact meets_done
  | cons n rest ih =>
    obtain ⟨hn, hrest⟩ := forall_mem_cons.mp h
    refine .bind (meets_askObject hn hd) fun found _ => ?_
    split
    · exact meets_done
    · exact ih hrest

lemma meets_thisMemberShape (hF : F.Sound) (this : Node) (name : String) (hd : least ≤ 2 * depth + 2) :
    (thisMemberShape this name depth).Meets F least fun _ => True := by
  refine .bind_model ?_
  split
  · exact meets_done
  next f hf =>
    refine .bind (meets_ofFunction hF (hF.model.thisFunction? hf)) fun o ho => ?_
    exact meets_gatherShapes (fun n hn => has_property hF ho hn) none (by omega)

lemma meets_memberShape (hF : F.Sound) (hn : F.Has n) (hd : least ≤ 2 * depth + 2) :
    (memberShape n depth).Meets F least fun _ => True := by
  refine .bind_facts ?_
  split
  next name object _ hobj =>
    have hobj := hn.child? .object object hobj
    split
    · exact meets_globalShape hF _ hd
    · refine meets_ite (fun _ => meets_thisMemberShape hF object name hd) fun _ => ?_
      refine .bind (meets_objectProperty hobj.some name (by omega)) fun value hval => ?_
      split
      · exact meets_askObject (hval _ rfl) (by omega)
      · exact meets_firstShape (fun _ hm => hF.model.mem_assignedMembers hm) (by omega)
  · exact meets_done

lemma meets_mergedShape (hcall : F.Has call) (hd : least ≤ 2 * depth + 2) :
    (mergedShape call depth).Meets F least fun _ => True := by
  have hargs : F.HasAll (call.list .arguments) := fun a ha => hcall.mem_list ha
  unfold mergedShape
  refine meets_ite (fun _ => meets_done) fun _ => ?_
  refine .bind (meets_foldlM (Q := fun found : Shape × Bool => found.1.Within F) ?_ ?_) fun found hfound => ?_
  · exact ⟨all_empty, hcall.some⟩
  · rintro ⟨shape, seen⟩ hshape a ha
    refine .bind (meets_askObject (has_of_mem_mergeArguments hargs ha) (by omega)) fun ref _ => ?_
    split
    · exact .bind (meets_shapeAt _) fun other hother => meets_pure (within_merge hshape hother true)
    · exact meets_pure hshape
  · refine meets_ite (fun _ => ?_) fun _ => meets_done
    exact (meets_newShape hfound).done

lemma meets_callShape (hcall : F.Has call) (hd : least ≤ 2 * depth + 2) :
    (callShape call depth).Meets F least fun _ => True := by
  refine .bind (meets_mergedShape hcall hd) fun merged _ => ?_
  split
  · exact meets_done
  · exact meets_foldReturns hcall trivial fun found _ returned hret =>
      .bind (meets_askObject hret (by omega)) fun ref _ => meets_gather found ref

lemma meets_thisShape (hF : F.Sound) (n : Node) (hd : least ≤ 2 * depth + 2) :
    (thisShape n depth).Meets F least fun _ => True := by
  refine .bind_model ?_
  split
  · exact meets_done
  next f hf =>
    refine .bind (meets_ofFunction hF (hF.model.thisFunction? hf)) fun o ho => ?_
    split
    · exact meets_done
    next first rest hliterals =>
      have hall := ho.literals
      rw [hliterals] at hall
      refine .bind (meets_foldlM (Q := fun shape : Shape => shape.Within F) ?_ ?_)
        fun shape hshape => (meets_newShape hshape).done
      · exact ⟨all_empty, (hall first mem_cons_self).some⟩
      · intro shape hshape l hl
        refine .bind (meets_askObject (hall l hl) (by omega)) fun ref _ => ?_
        split
        · exact .bind (meets_shapeAt _) fun other hother => meets_pure (within_merge hshape hother false)
        · exact meets_pure hshape

lemma has_branch (hn : F.Has n) (hm : m ∈ n.branches.filter (· != n)) : F.Has m :=
  Node.Below.mem_branches hn (mem_filter.mp hm).1

lemma meets_objectRule (hF : F.Sound) (hn : F.Has n) {rule : Engine (Option ShapeRef)}
    (h : objectRule n depth = some rule) : rule.Meets F (some (2 * depth + 2)) fun _ => True := by
  unfold objectRule at h
  split at h <;> cases h
  · exact meets_literalShape hn (Nat.le_refl _)
  next hkind => exact meets_identifierShape hF hn hkind (Nat.le_refl _)
  · exact meets_memberShape hF hn (Nat.le_refl _)
  · exact meets_callShape hn (Nat.le_refl _)
  iterate 2 exact meets_gatherShapes (fun _ hm => has_branch hn hm) none (by omega)
  · exact meets_object (hn.child? .right) (by omega)
  · exact meets_object (hn.last? .expressions) (by omega)
  · exact meets_thisShape hF n (Nat.le_refl _)

def KnownElements (F : Facts) (es : Option (List Node)) : Prop :=
  ∀ l, es = some l → ∀ n ∈ l, F.Knows n

lemma knownElements_none : KnownElements F none := by
  intro l hl
  cases hl

lemma knownElements_some {l : List Node} (h : ∀ n ∈ l, F.Knows n) : KnownElements F (some l) := by
  intro l' hl
  cases hl
  exact h

lemma KnownElements.getD {es : Option (List Node)} (h : KnownElements F es) {l : List Node}
    (hl : ∀ n ∈ l, F.Knows n) : ∀ n ∈ es.getD l, F.Knows n := by
  cases es with
  | none => exact hl
  | some es => exact h es rfl

lemma KnownElements.append {found extra : Option (List Node)} (hfound : KnownElements F found)
    (hextra : KnownElements F extra) : KnownElements F (appendElements found extra) := by
  unfold appendElements
  split
  · exact knownElements_some (forall_mem_append.mpr ⟨hfound.getD (by simp), hextra _ rfl⟩)
  · exact hfound

lemma meets_gatherElements (h : F.HasAll nodes) (hd : least < 2 * depth + 1) :
    (gatherElements nodes depth).Meets F least (KnownElements F) :=
  meets_foldlM knownElements_none fun _ hfound n hn =>
    .bind (meets_askArray (h n hn) hd) fun _ hes => meets_pure (hfound.append hes)

lemma meets_literalElements (hn : F.Has n) (hd : least ≤ 2 * depth + 2) :
    (literalElements n depth).Meets F least (KnownElements F) := by
  refine .bind (meets_mapM (Q := fun es => ∀ e ∈ es, F.Knows e) fun e he => ?_)
    fun groups hgroups => meets_pure (knownElements_some (forall_mem_flatten.mpr hgroups))
  have he := hn.mem_list he
  refine meets_ite (fun _ => ?_) fun _ => meets_pure (by simpa using he.knows)
  exact .bind (meets_array (he.child? .argument) (by omega)) fun es hes =>
    meets_pure (KnownElements.getD hes (by simp))

lemma meets_firstElements (h : F.HasAll nodes) (hd : least < 2 * depth + 1) :
    (firstElements depth nodes).Meets F least (KnownElements F) := by
  induction nodes with
  | nil => exact meets_pure knownElements_none
  | cons n rest ih =>
    obtain ⟨hn, hrest⟩ := forall_mem_cons.mp h
    refine .bind (meets_askArray hn hd) fun found hfound => ?_
    split
    · exact meets_pure hfound
    · exact ih hrest

lemma has_of_mem_addedElements (hF : F.Sound) (hn : n ∈ addedElements F.model b) : F.Has n := by
  obtain ⟨ref, -, hn⟩ := mem_flatMap.mp hn
  split at hn
  · split at hn
    · split at hn
      next call hcall =>
        have hcall : F.Has call := hF.model.calledBy? hcall
        exact hcall.mem_list (mem_filter.mp hn).1
      · cases hn
    · cases hn
  · cases hn

lemma meets_passedElements (index : Nat) (hpass : F.Has passed.argument) (hd : least ≤ 2 * depth + 2) :
    (passedElements index passed depth).Meets F least (KnownElements F) := by
  refine meets_underOuter (.bind (meets_takenFrom hpass passed.key (by omega)) fun argument harg => ?_)
  exact meets_array harg (by omega)

lemma meets_declaredElements (hF : F.Sound) (hb : F.Declares b) (hd : least ≤ 2 * depth + 2) :
    (declaredElements b depth).Meets F least (KnownElements F) := by
  unfold declaredElements
  split
  next value hval _ => exact meets_askArray (hb.initial value hval) (by omega)
  · refine meets_ite (fun _ => ?_) fun _ => meets_pure knownElements_none
    refine .bind (meets_argumentPaths hF hb none) fun paths hpaths => ?_
    exact meets_gatherElements (forall_mem_map.mpr hpaths) (by omega)

lemma meets_identifierElements (hF : F.Sound) (hn : F.Has n) (hkind : n.kind = .identifier)
    (hd : least ≤ 2 * depth + 2) : (identifierElements n depth).Meets F least (KnownElements F) := by
  refine .bind_facts ?_
  split
  · split
    next g hg =>
      refine .bind (meets_nameOf hn hkind) fun name _ => ?_
      refine meets_firstElements (fun n hn => ?_) (by omega)
      obtain ⟨e, he, rfl⟩ := mem_map.mp hn
      exact (hF.globals g hg).mem_lookup he
    · exact meets_pure knownElements_none
  next b hb =>
    refine .bind (meets_bound b) fun bound hbound => ?_
    split
    next index passed => exact meets_passedElements index (hbound index passed rfl) hd
    · refine .bind (meets_declaredElements hF (hF.model.binding? hb) hd) fun es hes => ?_
      refine meets_pure fun l hl n hn => ?_
      obtain ⟨l', hl', rfl⟩ := Option.map_eq_some_iff.mp hl
      obtain hn | hn := mem_append.mp (mem_of_mem_take hn)
      · exact hes l' hl' n hn
      · exact (has_of_mem_addedElements hF hn).knows

lemma meets_memberElements (hn : F.Has n) (hd : least ≤ 2 * depth + 2) :
    (memberElements n depth).Meets F least (KnownElements F) := by
  unfold memberElements
  split
  · exact meets_pure knownElements_none
  next name _ =>
    exact .bind (meets_objectProperty (hn.child? .object) name (by omega)) fun value hval =>
      meets_array hval (by omega)

lemma meets_concatenatedElements (hrecv : F.MaybeHas receiver) {arguments : List Node}
    (h : F.HasAll arguments) (hd : least ≤ 2 * depth + 2) :
    (concatenatedElements receiver arguments depth).Meets F least (KnownElements F) := by
  refine .bind (meets_array hrecv (by omega)) fun es hes => ?_
  split
  · exact meets_pure knownElements_none
  next base =>
    refine .bind (meets_mapM (Q := fun es => ∀ e ∈ es, F.Knows e) fun a ha => ?_)
      fun groups hgroups => meets_pure (knownElements_some ?_)
    · exact .bind (meets_askArray (h a ha) (by omega)) fun es hes =>
        meets_pure (KnownElements.getD hes (by simpa using (h a ha).knows))
    · exact forall_mem_append.mpr ⟨hes base rfl, forall_mem_flatten.mpr hgroups⟩

lemma knows_of_mem_pieces {s sep : String} (hn : n ∈ pieces s sep) : F.Knows n := by
  unfold pieces at hn
  split at hn
  · obtain ⟨c, -, rfl⟩ := mem_map.mp hn
    exact .inr ⟨_, rfl⟩
  · obtain ⟨text, -, rfl⟩ := mem_map.mp hn
    exact .inr ⟨text, rfl⟩

lemma meets_splitElements (hrecv : F.MaybeHas receiver) (sep : Option String)
    (hd : least ≤ 2 * depth + 2) : (splitElements receiver sep depth).Meets F least (KnownElements F) := by
  unfold splitElements
  split
  · exact meets_pure knownElements_none
  · refine .bind (meets_values hrecv (by omega)) fun values _ => ?_
    split
    · exact meets_pure knownElements_none
    · refine meets_pure ?_
      split
      · exact knownElements_none
      · exact knownElements_some fun n hn => knows_of_mem_pieces hn

lemma meets_callElements (hcall : F.Has call) (hd : least ≤ 2 * depth + 2) :
    (callElements call depth).Meets F least (KnownElements F) := by
  have hrecv : F.MaybeHas ((call.child? .callee).bind (·.child? .object)) :=
    (hcall.child? .callee).bind fun _ h => h.child? .object
  have hargs : F.HasAll (call.list .arguments) := fun a ha => hcall.mem_list ha
  unfold callElements
  dsimp only
  split
  · exact meets_concatenatedElements hrecv hargs hd
  · exact meets_splitElements hrecv _ hd
  · exact meets_foldReturns hcall knownElements_none fun found hfound returned hret =>
      .bind (meets_askArray hret (by omega)) fun es hes => meets_pure (hfound.append hes)

lemma meets_arrayRule (hF : F.Sound) (hn : F.Has n) {rule : Engine (Option (List Node))}
    (h : arrayRule n depth = some rule) : rule.Meets F (some (2 * depth + 2)) (KnownElements F) := by
  unfold arrayRule at h
  split at h <;> cases h
  · exact meets_literalElements hn (Nat.le_refl _)
  next hkind => exact meets_identifierElements hF hn hkind (Nat.le_refl _)
  · exact meets_memberElements hn (Nat.le_refl _)
  · exact meets_callElements hn (Nat.le_refl _)
  iterate 2 exact meets_gatherElements (fun _ hm => has_branch hn hm) (by omega)

lemma meets_mergeFunctions {groups : List (List Node)} (h : ∀ g ∈ groups, F.HasAll g) :
    (mergeFunctions groups).Meets F least F.HasAll :=
  .bind meets_limits fun _ _ => meets_pure fun f hf =>
    forall_mem_flatten.mpr h f (mem_of_mem_distinct (mem_of_mem_take hf))

lemma meets_functionsOfAny (h : F.HasAll nodes) (depth : Nat) :
    (functionsOfAny nodes depth).Meets F least F.HasAll :=
  .bind (meets_mapM fun n hn => meets_askFunctions (h n hn) depth) fun _ hgroups => meets_mergeFunctions hgroups

lemma meets_propertyFunctions {object : Option Node} (h : F.MaybeHas object) (key : String) (depth : Nat) :
    (propertyFunctions object key depth).Meets F (some 0) F.HasAll :=
  .bind (meets_objectProperty h key (by omega)) fun _ hval => meets_functions hval _

lemma meets_passedFunctions (index : Nat) (hpass : F.Has passed.argument) (depth : Nat) :
    (passedFunctions index passed depth).Meets F (some 0) F.HasAll :=
  meets_underOuter (.bind (meets_takenFrom hpass passed.key (by omega)) fun _ harg =>
    meets_functions harg _)

lemma has_functionWrite? {w : Node} (hw : F.Has w) : F.MaybeHas (functionWrite? w) := (hw.child? .right).ite

lemma meets_declaredFunctions (hb : F.Declares b) (depth : Nat) :
    (declaredFunctions b depth).Meets F (some 0) fun gs => ∀ g ∈ gs, F.HasAll g := by
  unfold declaredFunctions
  split
  next value hval =>
    exact .bind (meets_askFunctions (hb.initial value hval) _) fun fs hfs => meets_pure (by simpa using hfs)
  · split
    next source key hsrc _ =>
      have hsrc : F.Has source := hb.source source hsrc
      exact .bind (meets_propertyFunctions hsrc.some key depth) fun fs hfs => meets_pure (by simpa using hfs)
    · exact meets_pure (by simp)

lemma meets_suppliedFunctions (hF : F.Sound) (hb : F.Declares b) (depth : Nat) :
    (suppliedFunctions b depth).Meets F (some 0) fun gs => ∀ g ∈ gs, F.HasAll g := by
  refine .bind (meets_argumentPaths hF hb none) fun paths hpaths => meets_mapM fun path hpath => ?_
  split
  · exact meets_propertyFunctions (hpaths path hpath).some _ depth
  · exact meets_askFunctions (hpaths path hpath) _

lemma meets_bindingFunctions (hF : F.Sound) (hb : F.Declares b) (depth : Nat) :
    (bindingFunctions b depth).Meets F (some 0) F.HasAll := by
  refine .bind (meets_declaredFunctions hb depth) fun declared hdecl => ?_
  refine .bind meets_limits fun limits _ => ?_
  refine .bind (meets_mapM fun w hw => meets_askFunctions (F := F) (n := w) ?_ (depth + 1)) fun written hwrote => ?_
  · split at hw
    · obtain ⟨v, hv, hw⟩ := mem_filterMap.mp hw
      exact has_functionWrite? (hb.violations v hv) w hw
    · cases hw
  · refine meets_ite (fun _ => ?_) fun _ => ?_
    · exact .bind (meets_suppliedFunctions hF hb depth) fun _ h => meets_mergeFunctions h
    · exact meets_mergeFunctions (forall_mem_append.mpr ⟨hdecl, hwrote⟩)

lemma meets_identifierFunctions (hF : F.Sound) (hn : F.Has n) (hkind : n.kind = .identifier)
    (depth : Nat) : (identifierFunctions n depth).Meets F (some 0) F.HasAll := by
  refine .bind_facts ?_
  split
  · split
    next g hg =>
      refine .bind (meets_nameOf hn hkind) fun name _ => meets_functionsOfAny (fun n hn => ?_) _
      obtain ⟨e, he, rfl⟩ := mem_map.mp hn
      exact (hF.globals g hg).mem_lookup he
    · exact meets_pure (by simp)
  next b hb =>
    have hb := hF.model.binding? hb
    refine .bind (meets_bound b) fun bound hbound => ?_
    split
    next index passed => exact meets_passedFunctions index (hbound index passed rfl) depth
    · split
      iterate 2 exact meets_pure fun f hf => MaybeHas.mem_toList hb.initial hf
      · exact meets_bindingFunctions hF hb depth

lemma meets_computedFunctions (hn : F.Has n) (depth : Nat) :
    (computedFunctions n depth).Meets F (some 0) F.HasAll := by
  refine .bind (meets_values (hn.child? .property) (by omega)) fun names _ => ?_
  refine .bind (meets_object (hn.child? .object) (by omega)) fun found _ => ?_
  split
  · exact meets_pure (by simp)
  next ref =>
    refine .bind (meets_mapM fun name _ => ?_) fun groups hgroups => meets_mergeFunctions hgroups
    exact .bind (meets_propertyOf? (some ref) name) fun _ hval => meets_functions hval _

lemma meets_prototypeFunctions (hF : F.Sound) {ctorExpr : Option Node} (h : F.MaybeHas ctorExpr) (key : String)
    (depth : Nat) : (prototypeFunctions ctorExpr key depth).Meets F (some 0) F.HasAll := by
  refine .bind_model (.bind (meets_functions h _) fun ctors hctors => ?_)
  refine .bind (meets_mapM (Q := F.HasAll) fun ctor hctor => ?_)
    fun groups hgroups => meets_mergeFunctions hgroups
  refine .bind (meets_ofInstances hF (hctors ctor hctor)) fun o ho => ?_
  exact meets_pure fun f hf => has_property hF ho (mem_filter.mp hf).1

lemma has_of_mem_instanceSources (hF : F.Sound) {object : Node} (hobj : F.Has object)
    (hm : m ∈ instanceSources F.model object) : F.Has m := by
  unfold instanceSources at hm
  split at hm
  · obtain rfl := mem_singleton.mp hm
    exact hobj
  · split at hm
    · cases hm
    next b hb =>
      have hb := hF.model.rootBinding? hb
      split at hm
      next cls _ hcls =>
        obtain rfl := mem_singleton.mp hm
        exact hb.initial _ hcls
      · obtain hm | hm := mem_append.mp (mem_filter.mp hm).1
        · exact MaybeHas.mem_toList hb.initial hm
        · obtain ⟨w, hw, hm⟩ := mem_filterMap.mp hm
          exact (Has.child? (hb.violations w hw) .right).ite m hm

lemma meets_instanceFunctions (hF : F.Sound) (key : String) (depth : Nat) {target : Node} (h : F.Has target) :
    (instanceFunctions key depth target).Meets F (some 0) fun gs => ∀ g ∈ gs, F.HasAll g := by
  refine .bind_model ?_
  refine meets_ite (fun _ => ?_) fun _ => ?_
  · refine .bind (meets_functions (h.child? .callee) _) fun ctors hctors => ?_
    refine meets_mapM fun ctor hctor => ?_
    refine .bind (meets_ofInstances hF (hctors ctor hctor)) fun o ho => ?_
    exact meets_pure fun f hf => has_property hF ho (mem_filter.mp hf).1
  · refine meets_pure (forall_mem_singleton.mpr fun f hf => ?_)
    exact has_valuesUnder (fun _ hi => has_classMembers h (mem_filter.mp hi).1) hf

lemma meets_objectFunctions (hF : F.Sound) {object : Node} (hobj : F.Has object) (key : String)
    (depth : Nat) : (objectFunctions object key depth).Meets F (some 0) F.HasAll := by
  refine .bind_model ?_
  refine .bind (meets_propertyFunctions hobj.some key depth) fun inShape hinShape => ?_
  refine .bind (meets_mapM fun v hv =>
    meets_askFunctions (hF.model.mem_assignedMembers hv) _) fun assigned hassigned => ?_
  refine .bind (meets_mapM fun target htgt => meets_instanceFunctions hF key depth
    (has_of_mem_instanceSources hF hobj htgt)) fun ofInstances hinst => ?_
  refine meets_mergeFunctions (forall_mem_cons.mpr ⟨hinShape, ?_⟩)
  exact forall_mem_append.mpr ⟨hassigned, forall_mem_flatten.mpr hinst⟩

lemma meets_memberFunctions (hF : F.Sound) (hn : F.Has n) (depth : Nat) :
    (memberFunctions n depth).Meets F (some 0) F.HasAll := by
  refine .bind_facts ?_
  split
  · exact meets_computedFunctions hn depth
  · exact meets_pure (by simp)
  next name object _ hobj =>
    have hobj := hn.child? .object object hobj
    split
    next entries hentries =>
      obtain ⟨g, hg, hentries⟩ := Option.bind_eq_some_iff.mp hentries
      obtain ⟨global, -, rfl⟩ := Option.map_eq_some_iff.mp hentries
      refine meets_functionsOfAny (fun n hn => ?_) _
      obtain ⟨e, he, rfl⟩ := mem_map.mp hn
      exact (hF.globals g hg).mem_lookup he
    · refine meets_ite (fun _ => ?_) fun _ => meets_ite (fun _ => ?_) fun _ => ?_
      · split
        · exact meets_pure (by simp)
        next f hf =>
          refine .bind (meets_ofFunction hF (hF.model.thisFunction? hf)) fun o ho => ?_
          exact meets_functionsOfAny (fun n hn => has_property hF ho hn) _
      · exact meets_prototypeFunctions hF (hobj.child? .object) name depth
      · exact meets_objectFunctions hF hobj name depth

lemma meets_callFunctions (hcall : F.Has call) (depth : Nat) :
    (callFunctions call depth).Meets F (some 0) F.HasAll := by
  unfold callFunctions
  split
  · exact meets_pure (by simp)
  next callee hcal =>
    have hcal := hcall.child? .callee callee hcal
    refine meets_ite (fun _ => meets_functions (hcal.child? .object) _) fun _ => ?_
    refine .bind (meets_foldReturns (Q := fun gs => ∀ g ∈ gs, F.HasAll g) hcall (by simp)
      fun groups hgroups returned hret => ?_) fun groups hgroups => meets_mergeFunctions hgroups
    refine .bind (meets_askFunctions hret _) fun fs hfs => meets_pure ?_
    exact forall_mem_append.mpr ⟨hgroups, by simpa using hfs⟩

lemma meets_functionsRule (hF : F.Sound) (hn : F.Has n) {rule : Engine (List Node)}
    (h : functionsRule n depth = some rule) : rule.Meets F (some 0) F.HasAll := by
  have hself : F.HasAll ([n]) := by simpa using hn
  have hbr : (functionsOfAny (n.branches.filter (· != n)) (depth + 1)).Meets F (some 0)
      F.HasAll :=
    meets_functionsOfAny (fun _ hm => has_branch hn hm) _
  unfold functionsRule at h
  split at h <;> cases h
  iterate 5 exact meets_pure hself
  next hkind => exact meets_identifierFunctions hF hn hkind depth
  · exact meets_memberFunctions hF hn depth
  · exact meets_callFunctions hn depth
  iterate 2 exact hbr
  · exact meets_functions (hn.child? .right) _
  · exact meets_functions (hn.last? .expressions) _

end ScriptAudit.Ask
