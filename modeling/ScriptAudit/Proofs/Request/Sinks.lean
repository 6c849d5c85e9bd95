import ScriptAudit.Proofs.Resolve.Callers
import ScriptAudit.Request.Sink

/-!
# Recognising requests keeps to the program

A request object is looked for among nodes of the program, and a sink names the nodes that say what
is sent where.
-/

namespace ScriptAudit

open Engine Facts List

variable {F : Facts} {least : Nat} {n : Node}

lemma meets_xhrOrigins (hF : F.Sound) (hn : F.Has n) (hkind : n.kind = .identifier) :
    (xhrOrigins n).Meets F least F.HasAll := by
  refine .bind_facts ?_
  split
  · split
    next g hg =>
      refine .bind (meets_nameOf hn hkind) fun name _ => meets_pure fun m hm => ?_
      obtain ⟨e, he, rfl⟩ := mem_map.mp hm
      exact (hF.globals g hg).mem_lookup he
    · exact meets_pure (by simp)
  next b hb =>
    have hb := hF.model.binding? hb
    refine meets_pure (forall_mem_append.mpr ⟨fun m hm => ?_, fun m hm => ?_⟩)
    · exact Facts.MaybeHas.mem_toList hb.initial hm
    · obtain ⟨w, hw, hm⟩ := mem_filterMap.mp hm
      exact (Facts.Has.child? (hb.violations w hw) .right).ite m hm

lemma meets_xhrArguments (hF : F.Sound) (n : Node) : (xhrArguments n).Meets F least F.HasAll := by
  refine .bind_model ?_
  split
  next b hb =>
    refine meets_ite (fun _ => ?_) fun _ => meets_pure (by simp)
    exact .bind (Ask.meets_argumentPaths hF (hF.model.binding? hb) none) fun _ hpaths =>
      meets_pure (forall_mem_map.mpr hpaths)
  · exact meets_pure (by simp)

lemma meets_xhrRule (hF : F.Sound) {holds : Node → Engine Bool}
    (hholds : ∀ m, F.Has m → (holds m).Meets F least fun _ => True) (hn : F.Has n) (depth : Nat) :
    (xhrRule holds n depth).Meets F least fun _ => True := by
  have hmaybe {m : Option Node} (hm : F.MaybeHas m) : (m.toList.anyM holds).Meets F least fun _ => True :=
    meets_anyM fun c hc => hholds c (hm.mem_toList hc)
  have hbr : (n.branches.anyM holds).Meets F least fun _ => True :=
    meets_anyM fun c hc => hholds c (Node.Below.mem_branches hn hc)
  refine .bind_facts ?_
  split
  · exact meets_done
  iterate 2 exact hbr
  · exact hmaybe (hn.child? .right)
  · exact hmaybe (hn.last? .expressions)
  · refine .bind (Ask.meets_callTargets hn _) fun targets htargets => meets_anyM fun c hc => ?_
    obtain ⟨t, ht, hc⟩ := mem_flatMap.mp hc
    exact hholds c (Model.below_of_mem_returnsOf (htargets t ht) hc)
  · split
    · exact meets_anyM fun c hc => hholds c (hF.model.mem_assignedMembers hc)
    · exact meets_done
  next hkind =>
    refine meets_ite (fun _ => meets_done) fun _ => ?_
    refine .bind (meets_xhrOrigins hF hn hkind) fun origins horigins => ?_
    refine .bind (meets_anyM fun c hc => hholds c (horigins c hc)) fun _ _ => ?_
    refine meets_ite (fun _ => meets_done) fun _ => ?_
    exact .bind (meets_xhrArguments hF n) fun arguments hargs =>
      meets_anyM fun c hc => hholds c (hargs c hc)
  · exact meets_done

lemma meets_holdsXhr (hF : F.Sound) (room depth : Nat) (hn : F.Has n) :
    (holdsXhr room depth n).Meets F least fun _ => True := by
  induction room generalizing depth n with
  | zero => exact meets_done
  | succ room ih =>
    refine .bind meets_session fun s _ => ?_
    split
    · exact meets_done
    · refine .bind (meets_guarded (lists_unsearched rfl)
        (meets_xhrRule hF (fun m hm => ih (depth + 1) hm) hn depth)) fun r _ => ?_
      split
      · exact meets_done
      · refine meets_ite (fun _ => ?_) fun _ => meets_done
        exact .bind (meets_update fun _ hm => { hm with }) fun _ _ => meets_done

lemma meets_isXhr (hF : F.Sound) {n : Option Node} (hn : F.MaybeHas n) (depth : Nat) :
    (isXhr n depth).Meets F least fun _ => True := by
  unfold isXhr
  split
  · exact meets_done
  · exact .bind meets_limits fun _ _ => meets_holdsXhr hF _ depth (hn _ rfl)

/-- The nodes of a sink are nodes of the program. -/
structure RequestSink.Within (F : Facts) (sink : RequestSink) : Prop where
  node : F.Has sink.node
  url : F.Has sink.url
  options : F.MaybeHas sink.options
  method : F.MaybeHas sink.method
  receiver : F.MaybeHas sink.receiver

lemma meets_callSink? (hF : F.Sound) (hn : F.Has n) :
    (callSink? n).Meets F least fun r => ∀ sink, r = some sink → sink.Within F := by
  have hnone : ∀ sink : RequestSink, none = some sink → sink.Within F := fun _ h => by cases h
  refine .bind_facts ?_
  split
  next callee first rest hcal hargs =>
    have hall : F.HasAll (first :: rest) := fun a ha => hn.mem_list (hargs ▸ ha)
    obtain ⟨hfirst, hrest⟩ := forall_mem_cons.mp hall
    have hrecv := (hn.child? .callee callee hcal).child? .object
    have hhead : F.MaybeHas rest.head? := fun a ha => hrest a (mem_of_mem_head? ha)
    refine meets_ite (fun _ => meets_pure ?_) fun _ => ?_
    · rintro sink ⟨⟩
      exact ⟨hn, hfirst, hhead, maybeHas_none, maybeHas_none⟩
    · split
      next url _ _ =>
        have hopens : (opensXhr (callee.child? .object) first).Meets F least fun _ => True :=
          meets_ite (fun _ => meets_done) fun _ => meets_isXhr hF hrecv 0
        refine .bind hopens fun _ _ => meets_ite (fun _ => meets_pure ?_) fun _ => meets_pure hnone
        rintro sink ⟨⟩
        exact ⟨hn, hrest url mem_cons_self, maybeHas_none, hfirst.some, hrecv⟩
      · refine meets_ite (fun _ => meets_pure ?_) fun _ => meets_pure hnone
        rintro sink ⟨⟩
        exact ⟨hn, hfirst, hhead, maybeHas_none, maybeHas_none⟩
      · exact meets_pure hnone
  · exact meets_pure hnone

lemma within_constructionSink? (hn : F.Has n) {facts : Facts} {sink : RequestSink}
    (h : constructionSink? facts n = some sink) : sink.Within F := by
  obtain ⟨url, hurl, h⟩ := Option.bind_eq_some_iff.mp h
  obtain ⟨c, -, rfl⟩ := Option.map_eq_some_iff.mp h
  exact ⟨hn, hn.mem_list (mem_of_mem_head? hurl), maybeHas_none, maybeHas_none, maybeHas_none⟩

lemma within_assignmentSink? (hn : F.Has n) {facts : Facts} {sink : RequestSink}
    (h : assignmentSink? facts n = some sink) : sink.Within F := by
  unfold assignmentSink? at h
  split at h
  next left right _ hright =>
    split at h <;> cases h
    exact ⟨hn, hn.child? .right right hright, maybeHas_none, maybeHas_none, maybeHas_none⟩
  · cases h

lemma meets_requestSink? (hF : F.Sound) (hn : F.Has n) :
    (requestSink? n).Meets F least fun r => ∀ sink, r = some sink → sink.Within F := by
  unfold requestSink?
  split
  · exact meets_callSink? hF hn
  · exact .bind meets_facts fun _ _ => meets_pure fun _ h => within_constructionSink? hn h
  · exact .bind meets_facts fun _ _ => meets_pure fun _ h => within_assignmentSink? hn h
  · exact meets_pure fun _ h => by cases h

end ScriptAudit
