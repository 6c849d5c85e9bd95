import ScriptAudit.Proofs.Resolve.Asking
import ScriptAudit.Proofs.Resolve.Columns

/-!
# Callers and owners keep to the program

Calls of a function, the arguments they pass and the functions that share its `this` are nodes of
the program.
-/

namespace ScriptAudit

open Engine Facts List Option

variable {F : Facts} {least depth : Nat} {site : CallSite}

abbrev Facts.Declares (F : Facts) (b : Binding) : Prop := b.Inside F.model.root

lemma Facts.capped_unite (groups : List (List String)) : F.Capped (unite F.limits.maxValues groups) := by
  intro hcap
  rw [unite_eq_cut hcap]
  exact length_take_le _ _

lemma has_invocation? (hF : F.Sound) {a : Alias} (h : invocation? F.model a = some site) : F.Has site.call := by
  unfold invocation? at h
  split at h
  · cases h
  next p hp =>
    split at h
    · cases h
      exact hF.model.parent? hp
    · obtain ⟨member, -, h⟩ := bind_eq_some_iff.mp h
      split at h
      · obtain ⟨call, hcall, rfl⟩ := map_eq_some_iff.mp h
        exact hF.model.calledBy? hcall
      · cases h

lemma Ask.meets_callSites (hF : F.Sound) {f : Node} (hf : F.Has f) :
    (callSites f).Meets F least fun sites => ∀ site ∈ sites, F.Has site.call := by
  refine .bind meets_session fun s hs => ?_
  split
  next sites hsites => exact meets_pure (hs.memory.callSites.get? hsites)
  · refine .bind_facts ?_
    refine .bind (meets_guarded (Q := fun sites => ∀ site ∈ sites, F.Has site.call) (lists_unsearched rfl) ?_)
      fun r hr => ?_
    · refine .bind (meets_ask hf Question.after_aliases) fun aliases _ => ?_
      refine meets_pure fun site hsite => ?_
      obtain ⟨a, -, ha⟩ := mem_filterMap.mp (mem_distinctBy_mem (mem_of_mem_take hsite))
      exact has_invocation? hF ha
    split
    · exact meets_pure (by simp)
    next sites whole =>
      have hsites := hr sites whole rfl
      refine .bind meets_session fun t _ => meets_ite (fun _ => ?_) fun _ => meets_pure hsites
      refine .bind (meets_update fun m hm => ?_) fun _ _ => meets_pure hsites
      exact { hm with callSites := hm.callSites.insert hsites }

lemma has_of_mem_pathsAt {index : Nat} {wants : Bool} {path : ArgumentPath} (hsite : F.Has site.call)
    (h : path ∈ pathsAt index wants site) : F.Has path.argument := by
  unfold pathsAt at h
  dsimp only at h
  split at h
  · cases h
  · split at h
    next a ha =>
      obtain rfl := mem_singleton.mp h
      exact hsite.mem_list (mem_of_getElem? ha)
    · split at h
      · obtain ⟨⟨a, i⟩, ha, rfl⟩ := mem_map.mp h
        have ha := mem_of_mem_drop (mem_reverse.mp ha)
        exact hsite.mem_list (fst_mem_of_mem_zipIdx ha)
      · cases h

namespace Ask

lemma meets_argumentPaths (hF : F.Sound) {b : Binding} (hb : F.Declares b) (property : Option String) :
    (argumentPaths b property).Meets F least fun ps => ∀ p ∈ ps, F.Has p.argument := by
  unfold argumentPaths
  split
  next f index hf _ =>
    refine meets_ite (fun _ => meets_pure (by simp)) fun _ => ?_
    refine .bind (meets_callSites hF (hb.function f hf)) fun sites hsites => ?_
    refine meets_pure fun p hp => ?_
    obtain ⟨site, hsite, hp⟩ := mem_flatMap.mp hp
    exact has_of_mem_pathsAt (hsites site hsite) hp
  · exact meets_pure (by simp)

lemma meets_readPath (hd : least ≤ 2 * depth + 2) (keys : List String) {argument : Node}
    (h : F.Has argument) : (readPath argument keys depth).Meets F least F.Capped := by
  fun_induction readPath argument keys depth with
  | case1 argument => exact meets_askTexts h.knows (by omega)
  | case2 argument key => exact meets_askTexts h (by omega)
  | case3 argument key rest _ ih =>
    refine .bind (meets_objectProperty h.some key (by omega)) fun target htgt => ?_
    split
    · exact ih _ (htgt _ rfl)
    · exact meets_nil

lemma meets_readPaths (hd : least ≤ 2 * depth + 2) (keys : List String)
    (matched : Option Node) {paths : List ArgumentPath} (h : ∀ p ∈ paths, F.Has p.argument) :
    (readPaths keys depth matched paths).Meets F least fun _ => True := by
  induction paths generalizing matched with
  | nil => exact meets_done
  | cons path rest ih =>
    simp only [forall_mem_cons] at h
    have hread := meets_readPath hd keys h.1
    refine meets_ite (fun _ => meets_ite (fun _ => ih _ h.2) fun _ => ?_) fun _ => ?_
    · refine .bind hread fun values _ => meets_ite (fun _ => ih _ h.2) fun _ => ?_
      exact (ih _ h.2).done
    · exact .bind hread fun values _ => (ih _ h.2).done

lemma meets_paramValues (hF : F.Sound) (hd : least ≤ 2 * depth + 2) {b : Binding} (hb : F.Declares b)
    (property : Option String) : (paramValues b property depth).Meets F least F.Capped := by
  refine .bind meets_session fun s hs => ?_
  split
  next values hvals =>
    split at hvals
    · exact meets_pure (hs.memory.paramValues.get? hvals)
    · cases hvals
  · refine .bind (meets_guarded (Q := fun _ => True) (lists_unsearched rfl) ?_) fun r _ => ?_
    · exact .bind (meets_argumentPaths hF hb property) fun ps hps => meets_readPaths hd _ none hps
    split
    · exact meets_nil
    next groups whole _ =>
      refine .bind meets_limits fun limits hlimits => ?_
      subst hlimits
      have hunited : F.Capped (unite F.limits.maxValues groups) := capped_unite groups
      refine meets_ite (fun _ => ?_) fun _ => meets_pure hunited
      refine .bind (meets_update fun m hm => ?_) fun _ _ => meets_pure hunited
      exact { hm with paramValues := hm.paramValues.insert hunited }

end Ask

namespace Owner

variable {o : Owner} {n c f : Node} {key : String}

lemma has_classMembers {cls : Node} (h : F.Has cls) (hc : c ∈ classMembers cls) : F.Has c := by
  obtain ⟨body, hbody, hc⟩ := exists_of_mem_getD hc
  exact (h.child? .body body hbody).mem_list hc

lemma has_valuesUnder {items : List Node} (h : F.HasAll items) (hc : c ∈ valuesUnder items key) : F.Has c := by
  obtain ⟨i, hi, hc⟩ := mem_filterMap.mp hc
  exact ((h i hi).child? .value).ite c hc

lemma Within.withLiteralFunctions (h : o.Within F) : o.withLiteralFunctions.Within F := by
  refine { h with functions := fun f hf => ?_ }
  obtain hf | hf := mem_or_mem_of_mem_addAllNew hf
  · exact h.functions f hf
  · obtain ⟨l, hl, hf⟩ := mem_flatMap.mp (mem_filter.mp hf).1
    obtain ⟨p, hp, hf⟩ := mem_filterMap.mp hf
    exact ((h.literals l hl).mem_list hp).child? .value f hf

lemma Within.withPrototypeNode (hF : F.Sound) (h : o.Within F) (proto : Node) :
    (o.withPrototypeNode F.model proto).Within F := by
  unfold Owner.withPrototypeNode
  split
  next assign hassigned =>
    have hassigned : F.Has assign := hF.model.assignmentTo? hassigned
    split
    next right hright =>
      split
      · exact { h with literals := forall_mem_addNew h.literals (hassigned.child? .right _ hright) }
      · exact h
    · exact h
  · split
    next right hright =>
      obtain ⟨⟨member, assign⟩, hassigned, hright⟩ := bind_eq_some_iff.mp hright
      have hassigned : F.Has assign := (hF.model.memberAssignment? hassigned).2
      split
      · exact { h with functions := forall_mem_addNew h.functions (hassigned.child? .right _ hright) }
      · exact h
    · exact h

lemma has_thisAssignments (hF : F.Sound) (hc : c ∈ o.thisAssignments F.model key) : F.Has c := by
  obtain ⟨this, -, hc⟩ := mem_filterMap.mp hc
  obtain ⟨⟨member, assign⟩, hassigned, hc⟩ := bind_eq_some_iff.mp hc
  have hassigned : F.Has assign := (hF.model.memberAssignment? hassigned).2
  exact (hassigned.child? .right).ite c hc

lemma has_property (hF : F.Sound) (h : o.Within F) {assignments : Bool}
    (hc : c ∈ o.property F.model key assignments) : F.Has c := by
  unfold Owner.property at hc
  simp only [mem_append] at hc
  obtain ((hc | hc) | hc) | hc := hc
  · obtain ⟨l, hl, hc⟩ := mem_flatMap.mp hc
    refine has_valuesUnder (fun i hi => ?_) hc
    exact (h.literals l hl).mem_list (mem_filter.mp hi).1
  · obtain ⟨cls, hcls, hc⟩ := exists_of_mem_getD hc
    refine has_valuesUnder (fun i hi => ?_) hc
    exact has_classMembers (h.cls cls hcls) (mem_filter.mp hi).1
  · obtain ⟨proto, -, hc⟩ := mem_filterMap.mp hc
    obtain ⟨⟨member, assign⟩, hassigned, hc⟩ := bind_eq_some_iff.mp hc
    have hassigned : F.Has assign := (hF.model.memberAssignment? hassigned).2
    exact (hassigned.child? .right).ite c hc
  · split at hc
    · exact has_thisAssignments hF hc
    · cases hc

lemma within_ofClass {cls : Node} (h : F.Has cls) : (ofClass cls).Within F where
  functions f hf := by
    obtain ⟨i, hi, hf⟩ := mem_filterMap.mp hf
    split at hf
    · cases hf
    · exact (has_classMembers h hi).child? .value f hf
  literals l hl := by cases hl
  cls c hc := by
    cases hc
    exact h
  ctor := Ask.has_classConstructor? h

lemma within_ofMethod (hF : F.Sound) (method : Node) : (ofMethod F.model method).Within F := by
  have members : ∀ i ∈ ((F.model.parent? method).map (·.list .body)).getD [], F.Has i := by
    intro i hi
    obtain ⟨p, hp, hi⟩ := exists_of_mem_getD hi
    exact Node.Below.mem_list (hF.model.parent? hp) hi
  refine ⟨fun f hf => ?_, fun l hl => ?_, fun c hc => hF.model.grandparent? hc, fun c hc => ?_⟩
  · obtain ⟨i, hi, hf⟩ := mem_filterMap.mp hf
    exact ((members i hi).child? .value).ite f hf
  · cases hl
  · obtain ⟨i, hi, hc⟩ := bind_eq_some_iff.mp hc
    exact (members i (mem_filter.mp (mem_of_getLast? hi)).1).child? .value c hc

lemma has_constructorName? (hF : F.Sound) (hf : F.Has f) : F.MaybeHas (constructorName? F.model f) := by
  intro c hc
  unfold constructorName? at hc
  simp only [orElse_eq_or, or_eq_some_iff] at hc
  obtain hc | ⟨-, hc⟩ := hc
  · exact (hf.child? .id).ite c hc
  · refine Facts.MaybeHas.bind (fun _ => hF.model.parent?) (fun p hp => ?_) c hc
    split
    · exact (hp.child? .id).bind fun i hi => hi.some.ite
    · exact .ite ((hp.child? .left).bind fun l hl => hl.some.ite)
    · exact Facts.maybeHas_none

lemma meets_constructorFor (h : o.Within F) {expr : Node} (hexpr : F.Has expr) :
    (constructorFor o expr).Meets F least F.MaybeHas := by
  unfold constructorFor
  split
  next c hc => exact meets_pure (h.ctor c hc).some
  · exact .bind (Ask.meets_functions hexpr.some 0) fun fs hfs =>
      meets_pure fun f hf => hfs f (mem_of_find?_eq_some hf)

section

variable (hF : F.Sound)
include hF

lemma meets_attachPrototype {ctorExpr : Option Node} (h : o.Within F) (hexpr : F.MaybeHas ctorExpr) :
    (attachPrototype o ctorExpr).Meets F least (·.Within F) := by
  refine .bind_model ?_
  split
  · exact meets_pure h
  next expr chain hchain =>
    obtain ⟨e, he, hchain⟩ := bind_eq_some_iff.mp hchain
    obtain ⟨name, -, heq⟩ := map_eq_some_iff.mp hchain
    cases heq
    refine .bind (meets_constructorFor h (hexpr expr he)) fun ctor hctor => ?_
    refine meets_pure (List.foldlRecOn _ _ ?_ fun o ho proto _ => ho.withPrototypeNode hF proto)
    refine { h with ctor := hctor, functions := ?_ }
    dsimp only
    split
    · exact forall_mem_addNew h.functions (hctor _ rfl)
    · exact h.functions

lemma meets_ofLiteralMethod {literal : Node} (h : F.Has literal) :
    (ofLiteralMethod F.model literal).Meets F least (·.Within F) := by
  have hstart : Owner.Within F { literals := [literal] } := by
    refine ⟨by simp, fun l hl => ?_, by simp, by simp⟩
    obtain rfl := mem_singleton.mp hl
    exact h
  refine .bind (meets_attachPrototype hF hstart (Facts.MaybeHas.bind (.bind (fun _ => hF.model.parent?) ?_)
    fun left hleft => hleft.child? .object)) fun o ho => meets_pure ho.withLiteralFunctions
  exact fun assign hassigned => .ite ((hassigned.child? .left).bind fun l hl => hl.some.ite)

lemma meets_ofPrototypeMethod {proto : Node} (hf : F.Has f) (hproto : F.Has proto) :
    (ofPrototypeMethod f proto).Meets F least (·.Within F) := by
  have hstart : Owner.Within F {} := ⟨by simp, by simp, by simp, by simp⟩
  refine .bind (meets_attachPrototype hF hstart (hproto.child? .object)) fun o ho => ?_
  exact meets_pure
    { ho.withLiteralFunctions with functions := forall_mem_addNew ho.withLiteralFunctions.functions hf }

lemma meets_ofConstructor (hf : F.Has f) : (ofConstructor F.model f).Meets F least (·.Within F) := by
  have hstart : Owner.Within F { ctor := some f } := ⟨by simp, by simp, by simp, hf.some⟩
  refine .bind (meets_attachPrototype hF hstart (has_constructorName? hF hf)) fun o ho => ?_
  have ho := ho.withLiteralFunctions
  refine meets_pure ?_
  split
  · exact ho
  · exact { ho with functions := forall_mem_cons.mpr ⟨hf, ho.functions⟩ }

lemma has_literalOf? (f : Node) : F.MaybeHas (literalOf? F.model f) := by
  refine .bind (fun _ => hF.model.parent?) fun p _ => .ite ?_
  exact .bind (fun _ => hF.model.parent?) fun l hl => hl.some.ite

lemma has_prototypeOf? (f : Node) : F.MaybeHas (prototypeOf? F.model f) := by
  refine .bind (fun _ => hF.model.parent?) fun p hp => .ite ((hp.child? .left).bind fun left hleft => .ite ?_)
  exact (hleft.child? .object).bind fun o ho => ho.some.ite

lemma meets_build (hf : F.Has f) : (build f).Meets F least (·.Within F) := by
  refine .bind_model ?_
  split
  · exact meets_pure (within_ofMethod hF _)
  · split
    next literal hlit => exact meets_ofLiteralMethod hF (has_literalOf? hF f _ hlit)
    · split
      next proto hproto => exact meets_ofPrototypeMethod hF hf (has_prototypeOf? hF f _ hproto)
      · exact meets_ofConstructor hF hf

lemma meets_ofFunction (hf : F.Has f) : (ofFunction f).Meets F least (·.Within F) := by
  refine .bind meets_session fun s hs => ?_
  split
  next o ho => exact meets_pure (hs.memory.owners.get? ho)
  · refine .bind (meets_build hF hf) fun o ho => .bind (meets_update fun m hm => ?_) fun _ _ => meets_pure ho
    exact { hm with owners := hm.owners.insert ho }

lemma meets_ofInstances (hf : F.Has f) : (ofInstances f).Meets F least (·.Within F) :=
  meets_ite (fun _ => meets_pure (within_ofClass hf)) fun _ => meets_ofFunction hF hf

end

end Owner

end ScriptAudit
