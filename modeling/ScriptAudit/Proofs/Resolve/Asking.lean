import ScriptAudit.Proofs.Engine.Meets

/-!
# Asking keeps to the program

The operations that the rules of resolution are made of, and the ways in which they ask.
-/

namespace ScriptAudit

open List Question

namespace Facts

variable {F : Facts} {n c : Node} {f : Field}

def MaybeHas (F : Facts) (n : Option Node) : Prop :=
  ∀ m, n = some m → F.Has m

lemma maybeHas_none : F.MaybeHas none := by
  intro m hm
  cases hm

lemma MaybeHas.ite {c : Prop} [Decidable c] {o : Option Node} (h : F.MaybeHas o) :
    F.MaybeHas (if c then o else none) := by
  split
  · exact h
  · exact maybeHas_none

lemma Has.some (h : F.Has n) : F.MaybeHas (some n) := by
  intro m hm
  cases hm
  exact h

lemma Has.child? (h : F.Has n) (f : Field) : F.MaybeHas (n.child? f) := fun _ hc => Node.Below.child? h hc

lemma Has.last? (h : F.Has n) (f : Field) : F.MaybeHas (n.last? f) := fun _ hc => Node.Below.last? h hc

lemma Has.mem_list (h : F.Has n) (hc : c ∈ n.list f) : F.Has c := Node.Below.mem_list h hc

lemma MaybeHas.bind {n : Option Node} (h : F.MaybeHas n) {g : Node → Option Node}
    (hg : ∀ m, F.Has m → F.MaybeHas (g m)) : F.MaybeHas (n.bind g) := by
  intro c hc
  obtain ⟨m, hm, hc⟩ := Option.bind_eq_some_iff.mp hc
  exact hg m (h m hm) c hc

lemma MaybeHas.mem_toList {n : Option Node} (h : F.MaybeHas n) (hc : c ∈ n.toList) : F.Has c :=
  h c (Option.mem_toList.mp hc)

lemma Knows.has (h : F.Knows n) (hkind : n.kind ≠ .literal) : F.Has n := by
  obtain h | ⟨s, rfl⟩ := h
  · exact h
  · exact absurd rfl hkind

end Facts

namespace Question

variable {least depth : Nat} {n : Node}

lemma after_values (h : least < 2 * depth + 1) (property : Option String) : (values n property depth).After least := by
  refine .inr ?_
  cases property with
  | none =>
    simp only [rank]
    split <;> omega
  | some name =>
    simp only [rank]
    omega

lemma after_aliases : (aliases n).After least := .inl trivial

end Question

lemma Facts.lists_unsearched {F : Facts} {k : Key} (h : k.topic.isSearch = false) : F.Lists k := by
  intro hsearch
  rw [h] at hsearch
  cases hsearch

namespace Engine

variable {F : Facts} {least : Option Nat} {α : Type} {Q : α → Prop} {I : Memory → Prop} {keep : α → Memory → Memory}
  {lookUp : Memory → Option α} {rule : Option (Engine α)}

lemma meets_model : model.Meets F least (· = F.model) I := .bind meets_facts fun _ h => meets_pure (by rw [h])

lemma Meets.bind_facts {f : Facts → Engine α} (h : (f F).Meets F least Q I) : (facts >>= f).Meets F least Q I :=
  .bind meets_facts fun _ hF => hF ▸ h

lemma Meets.bind_model {f : Model → Engine α} (h : (f F.model).Meets F least Q I) :
    (model >>= f).Meets F least Q I := .bind meets_model fun _ hm => hm ▸ h

lemma meets_globals : globals.Meets F least (· = F.globals) I := .bind meets_facts fun _ h => meets_pure (by rw [h])

lemma meets_limits : limits.Meets F least (· = F.limits) I := .bind meets_facts fun _ h => meets_pure (by rw [h])

lemma meets_nameOf {n : Node} (hn : F.Has n) (hkind : n.kind = .identifier) :
    (nameOf n).Meets F least (fun _ => True) I := by
  unfold nameOf
  split
  · exact meets_done
  next hname => exact meets_fail ⟨n, hn, hkind, hname⟩

lemma meets_truncate : truncate.Meets F least fun _ => True := meets_update fun _ hm => { hm with }

lemma boundArgument?_has {s : Session} (hs : s.Within F) {b : Binding} {index : Nat}
    {passed : Passed} (h : s.boundArgument? b = some (index, passed)) : F.Has passed.argument := by
  obtain ⟨⟨frame, i⟩, hframe, h⟩ := exists_of_findSome?_eq_some h
  obtain ⟨p, hp, heq⟩ := Option.map_eq_some_iff.mp h
  cases heq
  obtain ⟨uid, hmem⟩ := mem_of_lookup hp
  have hframe : frame ∈ s.frames := fst_mem_of_mem_zipIdx (mem_reverse.mp hframe)
  exact hs.frames frame hframe _ hmem

lemma meets_bound (b : Binding) : (boundArgument? b).Meets F least (fun r =>
    ∀ index passed, r = some (index, passed) → F.Has passed.argument) I :=
  .bind meets_session fun _ hs => meets_pure fun _ _ h => boundArgument?_has hs h

lemma meets_boundOf? (b : Option Binding) : (boundOf? b).Meets F least fun r =>
    ∀ index passed, r = some (index, passed) → F.Has passed.argument := by
  unfold boundOf?
  split
  · exact meets_bound _
  · exact meets_pure fun _ _ h => by cases h

lemma meets_isBound (function : Node) : (isBound function).Meets F least (fun _ => True) I :=
  meets_session.done

lemma within_ofCall {call : Node} (hcall : F.Has call) (m : Model) (function : Node)
    (offset : Nat) : (Frame.ofCall m function call offset).Within F := by
  intro a ha
  obtain ⟨b, -, ha⟩ := mem_filterMap.mp ha
  obtain ⟨p, hp, rfl⟩ := Option.map_eq_some_iff.mp ha
  unfold Frame.passed? at hp
  split at hp
  · cases hp
  · obtain ⟨index, -, hp⟩ := Option.bind_eq_some_iff.mp hp
    dsimp only at hp
    split at hp
    · cases hp
    · obtain ⟨argument, harg, rfl⟩ := Option.map_eq_some_iff.mp hp
      exact hcall.mem_list (mem_of_getElem? harg)

lemma meets_withCall {function call : Node} {offset : Nat} {x : Engine α} (hcall : F.Has call)
    (hx : x.Meets F least Q I) : (withCall function call offset x).Meets F least Q I :=
  .bind meets_model fun m _ => ⟨within_ofCall hcall m function offset, hx⟩

lemma within_of_getElem? {m : Memory} (hm : m.Within F) (ref : ShapeRef) : (m.shapes[ref]?.getD {}).Within F := by
  cases h : m.shapes[ref]? with
  | none => exact ⟨Table.all_empty, fun n hn => by simp at hn⟩
  | some shape => exact hm.shapes ref shape h

lemma meets_shapeAt (ref : ShapeRef) : (shapeAt ref).Meets F least (·.Within F) I :=
  .bind meets_session fun _ hs => meets_pure (within_of_getElem? hs.memory ref)

lemma meets_newShape {shape : Shape} (h : shape.Within F) : (newShape shape).Meets F least fun _ => True := by
  refine .bind meets_session fun s _ => .bind (meets_update fun m hm => ?_) fun _ _ => meets_done
  refine { hm with shapes := fun i sh hsh => ?_ }
  rw [Array.getElem?_push] at hsh
  split at hsh
  · cases hsh
    exact h
  · exact hm.shapes i sh hsh

lemma meets_changeShape {ref : ShapeRef} {f : Shape → Shape}
    (h : ∀ shape : Shape, shape.Within F → (f shape).Within F) : (changeShape ref f).Meets F least fun _ => True := by
  refine meets_update fun m hm => { hm with shapes := fun i sh hsh => ?_ }
  rw [Array.getElem?_modify] at hsh
  split at hsh
  · obtain ⟨old, hold, rfl⟩ := Option.map_eq_some_iff.mp hsh
    exact h old (hm.shapes i old hold)
  · exact hm.shapes i sh hsh

lemma meets_checkSize (ref : ShapeRef) (size : Nat) : (checkSize ref size).Meets F least fun _ => True := by
  refine .bind (meets_shapeAt ref) fun shape _ => meets_ite (fun _ => ?_) fun _ => ?_
  · exact meets_fail trivial
  · exact meets_done

lemma meets_propertyOf? (ref : Option ShapeRef) (key : String) : (propertyOf? ref key).Meets F least F.MaybeHas I := by
  unfold propertyOf?
  split
  · exact .bind (meets_shapeAt _) fun _ h => meets_pure fun _ hn => h.properties.get? hn
  · exact meets_pure Facts.maybeHas_none

lemma meets_hasProperties (ref : Option ShapeRef) : (hasProperties ref).Meets F least fun _ => True := by
  unfold hasProperties
  split
  · exact (meets_shapeAt _).done
  · exact meets_done

lemma meets_shapeOrNew (found : Option ShapeRef) {shape : Shape} (h : shape.Within F) :
    (shapeOrNew found shape).Meets F least fun _ => True := by
  unfold shapeOrNew
  split
  · exact meets_done
  · exact meets_newShape h

lemma within_merge {shape other : Shape} (hshape : shape.Within F) (hother : other.Within F)
    (override : Bool) : (shape.merge other override).Within F where
  properties := by
    refine Table.All.foldl hshape.properties (fun t e ht he => ?_) hother.properties
    split
    · exact ht.insert he
    · exact ht.insertNew he
  origin n hn := by
    unfold Shape.merge at hn
    cases horig : shape.origin with
    | none =>
      rw [horig] at hn
      exact hother.origin n hn
    | some o =>
      rw [horig] at hn
      exact hshape.origin n (horig.trans hn)

lemma meets_gather (found cand : Option ShapeRef) : (gather found cand).Meets F least fun _ => True := by
  unfold gather
  split
  · exact meets_done
  · refine .bind (meets_shapeAt _) fun other hother => ?_
    split
    · refine .bind (meets_newShape (within_merge ?_ hother false)) fun _ _ => meets_done
      exact ⟨Table.all_empty, hother.origin⟩
    · exact (meets_changeShape fun _ h => within_merge h hother false).done

lemma meets_consider_keeping {k : Key} {depth : Nat} {none_ : α} (hnone : Q none_)
    (hcut : ∀ m : Memory, I m → I { m with truncations := m.truncations + 1 })
    (hlookUp : ∀ m : Memory, m.Within F → I m → ∀ a, lookUp m = some a → Q a)
    (hkeep : ∀ a, Q a → ∀ m : Memory, m.Within F → I m → (keep a m).Within F ∧ I (keep a m)) (hk : F.Lists k)
    (hrule : depth ≤ F.limits.maxDepth → ∀ r, rule = some r → r.Meets F (k.restart least) Q I) :
    (consider k depth none_ lookUp keep rule).Meets F least Q I := by
  refine .bind meets_limits fun limits hlimits => meets_ite (fun _ => ?_) fun hd => ?_
  · refine .bind (meets_update_keeping fun m hm hI => ?_) fun _ _ => meets_pure hnone
    exact ⟨{ hm with }, hcut m hI⟩
  · cases rule with
    | none => exact meets_pure hnone
    | some rule =>
      refine .bind meets_session_keeping fun s hs => ?_
      dsimp only
      split
      next a ha =>
        refine meets_pure ?_
        split at ha
        · cases ha
        · exact hlookUp _ hs.1.memory hs.2 a ha
      · rw [hlimits] at hd
        refine .bind (meets_guarded hk (hrule (Nat.le_of_not_lt hd) rule rfl)) fun r hr => ?_
        split
        · exact meets_pure hnone
        next a whole =>
          have ha := hr a whole rfl
          refine meets_ite (fun _ => ?_) fun _ => ?_
          · exact .bind (meets_update_keeping (hkeep a ha)) fun _ _ => meets_pure ha
          · exact meets_pure ha

lemma meets_consider {k : Key} {depth : Nat} {none_ : α}
    (hnone : Q none_) (hlookUp : ∀ m : Memory, m.Within F → ∀ a, lookUp m = some a → Q a)
    (hkeep : ∀ a, Q a → ∀ m : Memory, m.Within F → (keep a m).Within F) (hk : F.Lists k)
    (hrule : depth ≤ F.limits.maxDepth → ∀ r, rule = some r → r.Meets F (k.restart least) Q) :
    (consider k depth none_ lookUp keep rule).Meets F least Q :=
  meets_consider_keeping hnone (fun _ _ => trivial) (fun m hm _ => hlookUp m hm)
    (fun a ha m hm _ => ⟨hkeep a ha m hm, trivial⟩) hk hrule

end Engine

namespace Engine

variable {F : Facts} {least depth : Nat} {n : Node} {I : Memory → Prop}

lemma meets_askTexts {property : Option String} (hn : (values n property depth).Asked F)
    (hd : least < 2 * depth + 1) : (ask (.values n property depth)).Meets F least F.Capped I :=
  meets_ask hn (after_values hd property)

lemma meets_askValues (hn : F.Knows n) (hd : least < 2 * depth + 1) :
    (ask (.values n none depth)).Meets F least (fun _ => True) I := by
  have htexts : (ask (.values n none depth)).Meets F least F.Capped I := meets_askTexts hn hd
  exact htexts.mono fun _ _ => trivial

lemma meets_askProperty (hn : F.Has n) (name : String) (hd : least < 2 * depth + 1) :
    (ask (.values n (some name) depth)).Meets F least fun _ => True := by
  have htexts : (ask (.values n (some name) depth)).Meets F least F.Capped := meets_askTexts hn hd
  exact htexts.mono fun _ _ => trivial

lemma meets_askObject (hn : F.Has n) (hd : least < 2 * depth + 1) :
    (ask (.object n depth)).Meets F least (fun _ => True) I := meets_ask hn (.inr (by simp only [rank]; omega))

lemma meets_askArray (hn : F.Has n) (hd : least < 2 * depth + 1) :
    (ask (.array n depth)).Meets F least fun es => ∀ l, es = some l → ∀ n ∈ l, F.Knows n :=
  meets_ask hn (.inr (by simp only [rank]; omega))

lemma meets_askFunctions (hn : F.Has n) (depth : Nat) :
    (ask (.functions n depth)).Meets F least F.HasAll I := meets_ask hn (.inl trivial)

end Engine

namespace Ask

open Engine

variable {F : Facts} {least depth : Nat} {n : Option Node} {I : Memory → Prop}

section

variable (hn : F.MaybeHas n)
include hn

lemma meets_values (hd : least < 2 * depth + 1) : (values n depth).Meets F least F.Capped I := by
  unfold values
  split
  · exact meets_askTexts (hn _ rfl).knows hd
  · exact meets_nil

lemma meets_property (name : String) (hd : least < 2 * depth + 1) :
    (property n name depth).Meets F least F.Capped := by
  unfold property
  split
  · exact meets_askTexts (hn _ rfl) hd
  · exact meets_nil

lemma meets_object (hd : least < 2 * depth + 1) : (object n depth).Meets F least (fun _ => True) I := by
  unfold object
  split
  · exact meets_askObject (hn _ rfl) hd
  · exact meets_done

lemma meets_array (hd : least < 2 * depth + 1) :
    (array n depth).Meets F least fun es => ∀ l, es = some l → ∀ n ∈ l, F.Knows n := by
  unfold array
  split
  · exact meets_askArray (hn _ rfl) hd
  · exact meets_pure fun l hl => by cases hl

lemma meets_functions (depth : Nat) : (functions n depth).Meets F least F.HasAll I := by
  unfold functions
  split
  · exact meets_askFunctions (hn _ rfl) depth
  · exact meets_pure (by simp)

lemma meets_objectProperty (key : String) (hd : least < 2 * depth + 1) :
    (objectProperty n key depth).Meets F least F.MaybeHas I :=
  .bind (meets_object hn hd) fun ref _ => meets_propertyOf? ref key

end

lemma meets_takenFrom {argument : Node} (h : F.Has argument) (key : Option String)
    (hd : least < 2 * depth + 1) : (takenFrom argument key depth).Meets F least F.MaybeHas := by
  unfold takenFrom
  split
  · exact meets_objectProperty h.some _ hd
  · exact meets_pure h.some

lemma has_classConstructor? {cls : Node} (h : F.Has cls) : F.MaybeHas (classConstructor? cls) := by
  intro c hc
  unfold classConstructor? at hc
  split at hc
  next method hmeth =>
    obtain ⟨body, hbody, hmeth⟩ := Option.bind_eq_some_iff.mp hmeth
    have hbody := h.child? .body body hbody
    exact (hbody.mem_list (mem_of_find?_eq_some hmeth)).child? .value c hc
  · cases hc

lemma has_callableOf? {f : Node} (h : F.Has f) : F.MaybeHas (callableOf? f) := by
  unfold callableOf?
  split
  · exact has_classConstructor? h
  · exact h.some.ite

lemma meets_callables (hn : F.MaybeHas n) (depth : Nat) :
    (callables n depth).Meets F least F.HasAll I := by
  refine .bind (meets_functions hn depth) fun fs hfs => meets_pure fun f hf => ?_
  obtain ⟨g, hg, hf⟩ := mem_filterMap.mp (mem_of_mem_distinct hf)
  exact has_callableOf? (hfs g hg) f hf

lemma meets_callTargets {call : Node} (hcall : F.Has call) (depth : Nat) :
    (callTargets call depth).Meets F least (fun ts => ∀ t ∈ ts, F.Has t.1) I := by
  have targets (fs : List Node) (offset : Nat) (hfs : F.HasAll fs) : ∀ t ∈ fs.map (·, offset), F.Has t.1 := by
    intro t ht
    obtain ⟨f, hf, rfl⟩ := mem_map.mp ht
    exact hfs f hf
  unfold callTargets
  split
  · exact meets_pure (by simp)
  next callee hcal =>
    have hcal := hcall.child? .callee callee hcal
    refine meets_ite (fun _ => ?_) fun _ => ?_
    · exact .bind (meets_callables (hcal.child? .object) depth) fun fs hfs => meets_pure (targets fs 1 hfs)
    · exact .bind (meets_callables hcal.some depth) fun fs hfs => meets_pure (targets fs 0 hfs)

lemma meets_foldReturns {β : Type} {call : Node} {start : β} {step : β → Node → Engine β} {Q : β → Prop}
    (hcall : F.Has call) (hstart : Q start) (hstep : ∀ acc, Q acc → ∀ n, F.Has n → (step acc n).Meets F least Q I) :
    (foldReturns call depth start step).Meets F least Q I := by
  refine .bind (meets_callTargets hcall _) fun ts htargets => meets_foldlM hstart fun acc hacc t ht => ?_
  obtain ⟨function, offset⟩ := t
  refine .bind (meets_isBound function) fun _ _ => meets_ite (fun _ => meets_pure hacc) fun _ => ?_
  refine meets_withCall hcall (meets_foldlM hacc fun acc hacc n hn => hstep acc hacc n ?_)
  exact Model.below_of_mem_returnsOf (htargets _ ht) hn

end Ask

end ScriptAudit
