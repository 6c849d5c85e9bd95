import ScriptAudit.Proofs.Query
import ScriptAudit.Proofs.Resolve.Settled
import ScriptAudit.Proofs.Scope.Params

/-!
# What a call binds

While a call is being gone through, its frame gives for each parameter what the call passes.
-/

namespace ScriptAudit

open List ScriptAudit.Frame Option
variable {F : Facts} {s : Session} {n f call root : Node} {b c : Binding} {outer : List Frame} {m : Model}
  {offset : Nat} {passed : Passed}

lemma Facts.Describes.eq_of_getElem?_bindings (hF : F.Describes root) {i j : Nat}
    (hb : F.model.bindings[i]? = some b) (hc : F.model.bindings[j]? = some c) (h : c.uid = b.uid) : c = b := by
  obtain ⟨source, isModule, hm⟩ := hF.model
  have hij : j = i := by rw [← Model.uid_of_getElem?_bindings hm hb, ← Model.uid_of_getElem?_bindings hm hc, h]
  rw [hij, hb] at hc
  exact (some.inj hc).symm

lemma Facts.Describes.eq_of_uid (hF : F.Describes root) (hb : F.model.binding? n = some b)
    (hc : c ∈ F.model.paramsOf f) (h : c.uid = b.uid) : c = b := by
  obtain ⟨i, -, hi⟩ := bind_eq_some_iff.mp hb
  obtain ⟨j, -, hj⟩ := mem_filterMap.mp hc
  exact hF.eq_of_getElem?_bindings hi hj h

lemma Facts.Describes.eq_of_mem_paramsOf (hF : F.Describes root) (hb : b ∈ F.model.paramsOf f)
    (hc : c ∈ F.model.paramsOf f) (h : c.uid = b.uid) : c = b := by
  obtain ⟨i, -, hi⟩ := mem_filterMap.mp hb
  obtain ⟨j, -, hj⟩ := mem_filterMap.mp hc
  exact hF.eq_of_getElem?_bindings hi hj h

lemma Frame.lookup_ofCall (hb : b ∈ m.paramsOf f) (huniq : ∀ c ∈ m.paramsOf f, c.uid = b.uid → c = b)
    (h : passed? (call.list .arguments) offset b = some passed) :
    (ofCall m f call offset).arguments.lookup b.uid = some passed := by
  unfold ofCall
  generalize m.paramsOf f = params at hb huniq
  induction params with
  | nil => cases hb
  | cons c rest ih =>
    rw [forall_mem_cons] at huniq
    by_cases hc : c.uid = b.uid
    · obtain rfl := huniq.1 hc
      simp [h]
    · have hmem : b ∈ rest := (mem_cons.mp hb).resolve_left fun heq => hc (heq ▸ rfl)
      have hne : (b.uid == c.uid) = false := beq_eq_false_iff_ne.mpr (Ne.symm hc)
      cases hpass : passed? (call.list .arguments) offset c with
      | none => simpa [hpass] using ih hmem huniq.2
      | some _ => simpa [hpass, lookup_cons, hne] using ih hmem huniq.2

lemma Frame.exists_of_lookup_ofCall {u : Nat} (h : (ofCall m f call offset).arguments.lookup u = some passed) :
    ∃ c ∈ m.paramsOf f, c.uid = u ∧ passed? (call.list .arguments) offset c = some passed := by
  obtain ⟨pre, after, hsplit, -⟩ := lookup_eq_some_iff.mp h
  have hmem : (u, passed) ∈ (ofCall m f call offset).arguments := by
    rw [hsplit]
    exact mem_append_right _ mem_cons_self
  obtain ⟨c, hc, hentry⟩ := mem_filterMap.mp hmem
  obtain ⟨_, hpass, heq⟩ := map_eq_some_iff.mp hentry
  obtain ⟨huid, rfl⟩ := Prod.mk.inj heq
  exact ⟨c, hc, huid, hpass⟩

lemma Facts.Describes.lookup_ofCall_iff (hF : F.Describes root) (hb : b ∈ F.model.paramsOf f) :
    (ofCall F.model f call offset).arguments.lookup b.uid = some passed ↔
      passed? (call.list .arguments) offset b = some passed := by
  constructor
  · intro h
    obtain ⟨c, hc, huid, hpass⟩ := exists_of_lookup_ofCall h
    obtain rfl := hF.eq_of_mem_paramsOf hb hc huid
    exact hpass
  · exact lookup_ofCall hb fun c hc => hF.eq_of_mem_paramsOf hb hc

lemma Frame.mem_arguments_of_mem {u : Nat} (h : (u, passed) ∈ (ofCall m f call offset).arguments) :
    passed.argument ∈ call.list .arguments := by
  obtain ⟨c, -, hentry⟩ := mem_filterMap.mp h
  obtain ⟨_, hpass, heq⟩ := map_eq_some_iff.mp hentry
  obtain ⟨-, rfl⟩ := Prod.mk.inj heq
  unfold passed? at hpass
  split at hpass
  · cases hpass
  · obtain ⟨i, -, hpass⟩ := bind_eq_some_iff.mp hpass
    dsimp only at hpass
    split at hpass
    · cases hpass
    · obtain ⟨a, ha, rfl⟩ := map_eq_some_iff.mp hpass
      exact mem_of_getElem? ha

lemma Frame.bound?_singleton (frame : Frame) (b : Binding) :
    bound? [frame] b = (frame.arguments.lookup b.uid).map (0, ·) := by
  cases h : frame.arguments.lookup b.uid <;> simp [bound?, h]

end ScriptAudit
