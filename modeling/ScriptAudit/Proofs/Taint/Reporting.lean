import ScriptAudit.Proofs.Taint.Steps
import ScriptAudit.Proofs.Taint.Tracing

/-!
# The taint analysis keeps to the program

Handlers and dangerous operations are nodes of the program, and only such nodes are asked about and
traced.
-/

namespace ScriptAudit

open CallCheck Engine List Option

variable {F facts : Facts} {n : Node} {I : Memory → Prop} {P : Taint → Prop}

lemma has_registeredBy? {call : Node} (hcall : F.Has call) : F.MaybeHas (registeredBy? facts call) := by
  intro h hh
  unfold registeredBy? at hh
  split at hh
  next callee event handler rest _ hargs =>
    simp only [ite_none_right_eq_some, some.injEq] at hh
    obtain ⟨-, rfl⟩ := hh
    refine hcall.mem_list (f := .arguments) ?_
    rw [hargs]
    exact mem_cons_of_mem _ mem_cons_self
  · cases hh

lemma has_assignedHandler? (hn : F.Has n) : F.MaybeHas (assignedHandler? facts n) := (hn.child? .right).ite

lemma meets_registeredHandlers (hF : F.Sound) : registeredHandlers.Meets F (some 0) F.HasAll := by
  refine .bind_facts ?_
  refine .bind (meets_mapM (Q := F.HasAll) fun h hh => ?_)
    fun groups hgroups => meets_pure fun f hf => ?_
  · refine Ask.meets_callables (Facts.Has.some ?_) 0
    obtain hh | hh := mem_append.mp hh
    · obtain ⟨call, hcall, hh⟩ := mem_filterMap.mp hh
      exact has_registeredBy? (hF.model.calls call hcall) h hh
    · obtain ⟨m, hm, hh⟩ := mem_filterMap.mp hh
      exact has_assignedHandler? (hF.model.nodes m hm) h hh
  · exact forall_mem_flatten.mpr hgroups f (mem_of_mem_distinct hf)

lemma meets_isStrongUse (hF : F.Sound) (origin : Node) : (isStrongUse origin).Meets F (some 0) fun _ => True := by
  refine .bind_model ?_
  split
  · exact meets_done
  next p hp =>
    have hp : F.Has p := hF.model.parent? hp
    refine meets_ite (fun _ => meets_done) fun _ => meets_ite (fun _ => ?_) fun _ => meets_done
    split
    next callee hcal =>
      have hcal := hp.child? .callee callee hcal
      refine meets_ite (fun _ => ?_) fun _ => meets_done
      refine .bind (Ask.meets_array (hcal.child? .object) (by omega)) fun _ _ => ?_
      refine meets_ite (fun _ => meets_done) fun _ => ?_
      exact meets_facts.done
    · exact meets_done

lemma meets_originCheck (hF : F.Sound) (function : Node) (event : Option Binding) :
    (originCheck function event).Meets F (some 0) fun _ => True := by
  refine .bind meets_model fun _ _ => meets_ite (fun _ => meets_done) fun _ => ?_
  refine .bind (meets_anyM fun use _ => meets_isStrongUse hF use) fun _ _ => ?_
  exact meets_ite (fun _ => meets_done) fun _ => meets_done

lemma meets_noteHandler (hI : Memory.Stable I) (hF : F.Sound) {function : Node} (hnote : ∀ m : Memory, I m → I { m with
      handlers := function.ident :: m.handlers
      eventParams := ((firstParam? F.model function).map (·.uid)).toList ++ m.eventParams }) :
    (noteHandler function).Meets F (some 0) (fun _ => True) I := by
  refine .bind_model ?_
  refine .bind (meets_update_keeping fun m hm hIm => ⟨{ hm with }, hnote m hIm⟩) fun _ _ => ?_
  have hcheck := (meets_originCheck hF function (firstParam? F.model function)).keeping hI (steps_originCheck ..).quiet
  exact hcheck.done

def Memory.noted (m : Memory) (F : Facts) (f : Node) : Memory :=
  { m with handlers := f.ident :: m.handlers,
           eventParams := ((firstParam? F.model f).map (·.uid)).toList ++ m.eventParams }

lemma meets_messageHandlers (hI : Memory.Stable I) (hF : F.Sound)
    (hnote : ∀ f (m : Memory), I m → I (m.noted F f)) :
    messageHandlers.Meets F (some 0) (fun _ => True) I :=
  .bind ((meets_registeredHandlers hF).keeping hI steps_registeredHandlers.quiet) fun _ _ =>
    (meets_mapM fun f _ => meets_noteHandler hI hF (hnote f)).mono fun _ _ => trivial

def CallCheck.Within (F : Facts) : CallCheck → Prop
  | .sink s => F.Has s.value
  | _ => True

lemma CallCheck.within_ofSink? {s : Option TaintSink} (h : ∀ t, s = some t → F.Has t.value) : (ofSink? s).Within F := by
  cases s with
  | none => trivial
  | some t => exact h t rfl

lemma has_memberSink? {left right : Node} (hleft : F.Has left) (hright : F.Has right) :
    ∀ s, memberSink? facts left right = some s → F.Has s.value := by
  intro s hs
  unfold memberSink? at hs
  split at hs
  · repeat' split at hs
    all_goals cases hs <;> exact hright
  · split at hs
    next key hkey =>
      split at hs <;> cases hs
      exact hleft.child? .property key hkey
    · cases hs

lemma has_assignedSink? (hn : F.Has n) : ∀ s, assignedSink? facts n = some s → F.Has s.value := by
  intro s hs
  unfold assignedSink? at hs
  split at hs
  next left right hleft hright =>
    have hright := hn.child? .right right hright
    split at hs
    · cases hs
    · split at hs
      · split at hs <;> cases hs
        exact hright
      · exact has_memberSink? (hn.child? .left left hleft) hright s hs
      · cases hs
  · cases hs

lemma has_constructedSink? (hn : F.Has n) : ∀ s, constructedSink? facts n = some s → F.Has s.value := by
  intro s hs
  unfold constructedSink? at hs
  dsimp only at hs
  split at hs
  next first last hfirst hlast =>
    split at hs
    · cases hs
      exact hn.mem_list (mem_of_getLast? hlast)
    · split at hs <;> cases hs
      exact hn.mem_list (mem_of_mem_head? hfirst)
  · cases hs

lemma meets_passingRule? (ref : ShapeRef) (size : Nat) {rules : List (String × Node)} (h : ∀ r ∈ rules, F.Has r.2) :
    (passingRule? ref size rules).Meets F (some 0) fun _ => True := by
  induction rules with
  | nil => exact (meets_checkSize ref size).done
  | cons r rest ih =>
    obtain ⟨rule, value⟩ := r
    obtain ⟨hval, hrest⟩ := forall_mem_cons.mp h
    have hpas : (passesInput rule value).Meets F (some 0) fun _ => True := by
      refine .bind meets_model fun _ _ => meets_ite (fun _ => ?_) fun _ => meets_done
      exact (Ask.meets_callables (Facts.Has.some hval) 0).done
    refine .bind (meets_checkSize ref size) fun _ _ => .bind hpas fun _ _ => ?_
    exact meets_ite (fun _ => meets_done) fun _ => ih hrest

section Calls

variable {arguments : List Node} (hargs : F.HasAll arguments)

include hargs

lemma meets_checkPolicy : (checkPolicy arguments).Meets F (some 0) (CallCheck.Within F) := by
  unfold checkPolicy
  split
  next policy _ =>
    have hpolicy := hargs policy (mem_cons_of_mem _ mem_cons_self)
    refine .bind (meets_askObject hpolicy (by omega)) fun found _ => ?_
    split
    · exact meets_pure trivial
    next ref =>
      refine .bind (meets_shapeAt ref) fun shape hshape => ?_
      refine .bind (meets_passingRule? ref _ hshape.properties) fun rule _ => ?_
      split <;> exact meets_pure trivial
  · exact meets_pure trivial

lemma meets_checkGlobalCall (callee : Node) :
    (checkGlobalCall callee arguments).Meets F (some 0) fun r => ∀ check, r = some check → check.Within F := by
  have hnone : ∀ check : CallCheck, none = some check → check.Within F := fun _ h => by cases h
  refine .bind meets_facts fun _ _ => ?_
  split
  · unfold checkCodeCall
    split
    next first last hfirst hlast =>
      have hfirst := hargs first (mem_of_mem_head? hfirst)
      have hlast := hargs last (mem_of_getLast? hlast)
      have hcode (name : String) (check : CallCheck)
          (h : some (sink ⟨"code_injection", name, first, .high⟩) = some check) :
          check.Within F := by
        cases h
        exact hfirst
      refine meets_ite (fun _ => meets_ite (fun _ => meets_pure (hcode _)) fun _ => ?_) fun _ =>
        meets_ite (fun _ => meets_pure ?_) fun _ => meets_pure hnone
      · refine .bind (Ask.meets_callables hfirst.some 0) fun _ _ =>
          meets_ite (fun _ => meets_pure (hcode _)) fun _ => meets_pure ?_
        rintro check ⟨⟩
        trivial
      · rintro check ⟨⟩
        exact hlast
    · exact meets_pure hnone
  · exact meets_pure hnone

lemma meets_checkMethodCall (name : String) (receiver : Option Node) :
    (checkMethodCall name receiver arguments).Meets F (some 0) (CallCheck.Within F) := by
  refine .bind meets_facts fun facts _ => ?_
  split
  next target _ =>
    have htgt := hargs target (mem_cons_of_mem _ mem_cons_self)
    refine .bind (meets_askValues htgt.knows (by omega)) fun _ _ => ?_
    exact meets_ite (fun _ => meets_pure trivial) fun _ => meets_pure trivial
  next key value _ =>
    have hkey := hargs key mem_cons_self
    have hval := hargs value (mem_cons_of_mem _ mem_cons_self)
    refine .bind (meets_askValues hkey.knows (by omega)) fun _ _ => meets_pure ?_
    refine within_ofSink? fun s hs => ?_
    unfold attributeSink? at hs
    repeat' split at hs
    all_goals cases hs <;> exact hval
  · refine meets_ite (fun _ => meets_checkPolicy hargs) fun _ => ?_
    split
    · exact meets_pure (hargs _ mem_cons_self)
    · refine meets_ite (fun _ => meets_pure ?_) fun _ => meets_pure trivial
      exact hargs _ (mem_cons_of_mem _ mem_cons_self)
    · refine meets_ite (fun _ => meets_pure ?_) fun _ => meets_pure trivial
      exact hargs _ (mem_cons_of_mem _ mem_cons_self)
    · refine meets_pure (within_ofSink? fun s hs => ?_)
      obtain ⟨⟨severity, index⟩, -, hs⟩ := bind_eq_some_iff.mp hs
      dsimp only at hs
      split at hs
      · cases hs
      · obtain ⟨a, ha, rfl⟩ := map_eq_some_iff.mp hs
        exact hargs a (mem_of_getElem? ha)

end Calls

lemma meets_checkNode (hn : F.Has n) : (checkNode n).Meets F (some 0) (CallCheck.Within F) := by
  refine .bind meets_facts fun facts _ => ?_
  split
  · exact meets_pure (within_ofSink? (has_assignedSink? hn))
  · unfold checkCall
    split
    · exact meets_pure trivial
    · have hargs : F.HasAll (n.list .arguments) := fun a ha => hn.mem_list ha
      refine .bind (meets_checkGlobalCall hargs _) fun asGlobal hglo => ?_
      split
      · exact meets_pure (hglo _ rfl)
      · exact meets_checkMethodCall hargs _ _
      · exact meets_pure trivial
  · exact meets_pure (within_ofSink? (has_constructedSink? hn))
  · exact meets_pure trivial

def Emission.Names (P : Taint → Prop) (e : Emission) : Prop :=
  e.isPattern = false → ∃ t : Taint, P t ∧ t.isUserControlled = true ∧ e.taintSource = t.label

lemma meets_emissionAt? (hP : F.Traces I P) (hF : F.Sound) (hn : F.Has n) :
    (emissionAt? n).Meets F (some 0) (fun found => ∀ e ∈ found, e.Names P) I := by
  have hcheck := (meets_checkNode hn).keeping hP.stable (steps_checkNode n).quiet
  refine .bind hcheck fun check hcheck => ?_
  split
  · refine .bind (meets_traceSource hP hF (Facts.Has.some hcheck) 0) fun source hsrc => ?_
    refine meets_ite (fun _ => meets_pure (by simp)) fun huser => ?_
    refine .bind meets_model fun _ _ => meets_pure ?_
    rintro e ⟨⟩ -
    exact ⟨source, hsrc, by simpa using huser, rfl⟩
  · refine meets_pure ?_
    rintro e ⟨⟩ hpat
    cases hpat
  · exact meets_pure (by simp)

lemma isPattern_of_handler {h : MessageHandler} {e : Emission} (he : h.emission? = some e) : e.isPattern = true := by
  unfold MessageHandler.emission? at he
  split at he
  · cases he
    rfl
  · cases he
    rfl
  · cases he

lemma meets_emissions (hP : F.Traces I P) (hF : F.Sound) :
    (F.model.nodes.mapM emissionAt?).Meets F (some 0) (fun atNodes => ∀ e ∈ atNodes.filterMap id, e.Names P) I := by
  refine (meets_mapM fun n hn => meets_emissionAt? hP hF (hF.model.nodes n hn)).mono fun atNodes h => ?_
  intro e he
  obtain ⟨found, hfound, hid⟩ := mem_filterMap.mp he
  exact h found hfound e hid

lemma meets_analyseTaint_keeping (hP : F.Traces I P) (hF : F.Sound)
    (hnote : ∀ f (m : Memory), I m → I (m.noted F f)) :
    analyseTaint.Meets F (some 0) (fun _ => True) I := by
  refine .bind_facts ?_
  refine .bind (meets_messageHandlers hP.stable hF hnote) fun handlers _ => ?_
  exact (meets_emissions hP hF).done

end ScriptAudit
