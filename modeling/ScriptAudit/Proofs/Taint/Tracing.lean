import ScriptAudit.Proofs.Taint.Sources

/-!
# Tracing taint keeps to the program

The rules for taint trace nodes of the program one level down.
-/

namespace ScriptAudit

open Engine List Facts Option Ask

variable {F : Facts} {n : Node} {b : Binding} {I : Memory → Prop} {P : Taint → Prop}

lemma Facts.Sound.declares (hF : F.Sound) (hb : F.Binds b) : F.Declares b := by
  obtain ⟨n, -, hb⟩ := hb
  exact hF.model.binding? hb

section Rules

variable {trace : Option Node → Engine Taint} {depth : Nat} (hP : F.Traces I P)
  (htrace : ∀ n, F.MaybeHas n → (trace n).Meets F (some 0) P I) {object : Node}

include hP htrace

lemma meets_traceAll {nodes : List Node} (h : F.HasAll nodes) : (traceAll trace nodes).Meets F (some 0) P I :=
  .bind (meets_mapM fun n hn => htrace (some n) (h n hn).some) fun _ hparts => meets_pure (hP.combine hparts)

lemma meets_traceProperty (hobj : F.Has object) (hb : F.Binds b) (hparam : b.isParam = true) {key : String}
    (hkey : b.key = some key) : (traceProperty trace depth object key).Meets F (some 0) P I := by
  refine .bind_facts ?_
  refine meets_ite (fun htest => meets_pure ?_) fun _ => ?_
  · obtain ⟨hloc, hmem⟩ := Bool.and_eq_true_iff.mp htest
    exact hP.fixed (.passed hb hparam hobj hloc hkey (contains_iff_mem.mp hmem))
  · refine .bind (meets_objectProperty hobj.some key (by omega)) fun value hval => ?_
    split
    · exact htrace _ hval
    · exact htrace _ hobj.some

omit hP htrace in
lemma has_callbackSource? {m : Model} (hm : m.Inside) {function receiver : Node} {method : String}
    (h : callbackSource? m function b = some (receiver, method)) : m.root.Below receiver := by
  obtain ⟨call, hcall, h⟩ := bind_eq_some_iff.mp h
  have hcall := hm.parent? hcall
  split at h
  · obtain ⟨callee, hcal, h⟩ := bind_eq_some_iff.mp h
    have hcal := hcall.child? hcal
    split at h
    next object _ hobj =>
      simp only [ite_none_right_eq_some, some.injEq, Prod.mk.injEq] at h
      obtain ⟨-, rfl, -⟩ := h
      exact hcal.child? hobj
    · cases h
  · cases h

lemma meets_traceSupplied (hF : F.Sound) (hb : F.Binds b) (hparam : b.isParam = true) :
    (traceSupplied trace depth b).Meets F (some 0) P I := by
  have hdecls := hF.declares hb
  refine .bind ((meets_argumentPaths hF hdecls none).keeping hP.stable (steps_argumentPaths ..).quiet)
    fun paths hpaths => ?_
  refine .bind meets_limits fun limits _ => ?_
  refine .bind (meets_mapM (Q := P) fun path hpath => ?_) fun supplied hsup => ?_
  · have hpath := hpaths path (mem_of_mem_take (mem_filter.mp hpath).1)
    split
    next key hkey => exact meets_traceProperty hP htrace hpath hb hparam hkey
    · exact htrace _ hpath.some
  · refine .bind (meets_mapM (Q := P) fun d hd => ?_) fun fallback hfall => meets_pure ?_
    · exact htrace _ (Has.some (MaybeHas.mem_toList hdecls.fallback hd))
    · split
      · exact hP.plain rfl
      · refine hP.combine fun t ht => ?_
        exact (mem_append.mp ht).elim (hsup t) (hfall t)

lemma meets_traceParam (hF : F.Sound) (hb : F.Binds b) (hparam : b.isParam = true) :
    (traceParam trace depth b).Meets F (some 0) P I := by
  refine .bind meets_facts fun facts hfacts => .bind meets_session_keeping fun s hs => ?_
  subst hfacts
  split
  · exact meets_pure (hP.plain rfl)
  · next f hf =>
    refine meets_ite (fun _ => meets_pure (hP.plain rfl)) fun _ => meets_ite (fun htest => ?_) fun _ => ?_
    · simp only [Bool.and_eq_true, beq_iff_eq] at htest
      exact meets_pure (hP.eventKey hs.2 hb hf htest.1.1 htest.1.2 htest.2)
    · split
      next receiver method hsrc =>
        refine meets_ite (fun _ => meets_pure (hP.plain rfl)) fun _ => htrace _ ?_
        exact Has.some (has_callbackSource? hF.model hsrc)
      · exact meets_traceSupplied hP htrace hF hb hparam

lemma meets_tracePattern (hF : F.Sound) (hb : F.Binds b) {source : Node}
    (hsrc : b.source = some source) : (tracePattern trace b source).Meets F (some 0) P I := by
  have hhas : F.Has source := (hF.declares hb).source source hsrc
  unfold tracePattern
  split
  next key hkey =>
    refine .bind_facts ?_
    refine meets_ite (fun htest => meets_pure ?_) fun _ => htrace _ hhas.some
    obtain ⟨hloc, hmem⟩ := Bool.and_eq_true_iff.mp htest
    exact hP.fixed (.taken hb hsrc hloc hkey (contains_iff_mem.mp hmem))
  · exact htrace _ hhas.some

omit hP in
lemma meets_traceWrites (hb : F.Declares b) : (traceWrites trace b).Meets F (some 0) (fun ts => ∀ t ∈ ts, P t) I := by
  have hone {t : Taint} (ht : P t) : ∀ u ∈ [t], P u := by simpa using ht
  refine .bind (meets_mapM (Q := fun ts => ∀ t ∈ ts, P t) fun w hw => ?_) fun traced htraced => ?_
  · have hw : F.Has w := hb.violations w hw
    have hright := htrace _ (hw.child? .right)
    split
    iterate 3 exact .bind hright fun _ ht => meets_pure (hone ht)
    · exact .bind (htrace _ (hw.child? .initial)) fun _ ht => meets_pure (hone ht)
    · exact meets_pure (by simp)
  · exact meets_pure (forall_mem_flatten.mpr htraced)

lemma meets_traceLoop (hF : F.Sound) (b : Binding) : (traceLoop trace b).Meets F (some 0) P I := by
  refine .bind_model ?_
  split
  next loop hloop =>
    obtain ⟨declarator, -, hloop⟩ := bind_eq_some_iff.mp hloop
    have hloop : F.Has loop := hF.model.grandparent? hloop
    exact meets_ite (fun _ => htrace _ (hloop.child? .right)) fun _ => meets_pure (hP.plain rfl)
  · exact meets_pure (hP.plain rfl)

lemma meets_traceVariable (hF : F.Sound) (hb : F.Binds b) : (traceVariable trace b).Meets F (some 0) P I := by
  have hdecls := hF.declares hb
  refine .bind (meets_mapM (Q := P) fun v hv => ?_) fun declared hdecl => ?_
  · exact htrace _ (Has.some (MaybeHas.mem_toList hdecls.initial hv))
  refine .bind (meets_mapM (Q := P) fun s hs => ?_) fun taken htaken => ?_
  · exact meets_tracePattern hP htrace hF hb (mem_toList.mp hs)
  have hboth : ∀ t ∈ declared ++ taken, P t := fun t ht => (mem_append.mp ht).elim (hdecl t) (htaken t)
  refine .bind meets_limits fun _ _ => meets_ite (fun _ => meets_pure ?_) fun _ => ?_
  · exact hP.combine (forall_mem_cons.mpr ⟨hP.plain rfl, hboth⟩)
  refine .bind (meets_traceWrites htrace hdecls) fun written hwrote => ?_
  refine meets_ite (fun _ => meets_traceLoop hP htrace hF b) fun _ => meets_pure (hP.combine ?_)
  exact fun t ht => (mem_append.mp ht).elim (hboth t) (hwrote t)

lemma meets_traceIdentifier (hF : F.Sound) (hn : F.Has n) (hkind : n.kind = .identifier) :
    (traceIdentifier trace depth n).Meets F (some 0) P I := by
  refine .bind_facts ?_
  split
  · refine meets_ite (fun htest => meets_pure (hP.fixed (.name hn htest))) fun _ => ?_
    split
    · exact meets_pure (hP.plain rfl)
    next g hg =>
      refine .bind (meets_nameOf hn hkind) fun name _ => ?_
      have hdefinitions : ∀ d ∈ (g.lookup name).map (·.definition), F.Has d :=
        forall_mem_map.mpr fun e he => (hF.globals g hg).mem_lookup he
      split
      · exact meets_pure (hP.plain rfl)
      · exact meets_traceAll hP htrace hdefinitions
  next b hb =>
    have hbinds : F.Binds b := ⟨n, hn, hb⟩
    refine .bind (meets_bound b) fun bound hbound => ?_
    split
    next index passed => exact meets_underOuter (htrace _ (Has.some (hbound index passed rfl)))
    · split
      iterate 3 exact meets_pure (hP.plain rfl)
      next hsort =>
        have hparam : b.isParam = true := by simp [Binding.isParam, hsort]
        exact meets_traceParam hP htrace hF hbinds hparam
      · exact meets_traceVariable hP htrace hF hbinds

lemma meets_traceComputed (hn : F.Has n) (hobj : F.Has object) :
    (traceComputed trace depth n object).Meets F (some 0) P I := by
  refine .bind (htrace _ hobj.some) fun base hbase => ?_
  refine meets_ite (fun _ => meets_pure hbase) fun _ => ?_
  refine .bind (meets_askObject hobj (by omega)) fun found _ => ?_
  split
  · exact meets_pure (hP.plain rfl)
  next ref =>
    refine .bind (meets_values (hn.child? .property) (by omega)) fun keys _ => ?_
    refine .bind (meets_mapM (Q := fun ts => ∀ t ∈ ts, P t) fun key _ => ?_)
      fun classes hclasses => meets_pure (hP.combine ?_)
    · refine .bind (meets_propertyOf? (some ref) key) fun value hval => ?_
      split
      · exact .bind (htrace _ hval) fun _ ht => meets_pure (by simpa using ht)
      · exact meets_pure (by simp)
    · exact forall_mem_cons.mpr ⟨hP.plain rfl, forall_mem_flatten.mpr hclasses⟩

lemma meets_traceNamed (hF : F.Sound) (hobj : F.Has object) (name : String) :
    (traceNamed trace depth object name).Meets F (some 0) P I := by
  refine .bind (htrace _ hobj.some) fun base hbase => ?_
  refine meets_ite (fun _ => meets_pure hbase) fun _ => ?_
  refine .bind (meets_objectProperty hobj.some name (by omega)) fun defined hdefined => ?_
  refine .bind (meets_mapM (Q := P) fun v hv => ?_) fun inShape hinShape => ?_
  · exact htrace _ (Has.some (hdefined.mem_toList hv))
  refine .bind_model ?_
  refine .bind (meets_mapM (Q := P) fun v hv => ?_) fun assigned hassigned => meets_pure ?_
  · exact htrace _ (Has.some (hF.model.mem_assignedMembers hv))
  · split
    · exact hP.plain rfl
    · exact hP.combine fun t ht => (mem_append.mp ht).elim (hinShape t) (hassigned t)

lemma meets_traceMember (hF : F.Sound) (hn : F.Has n) : (traceMember trace depth n).Meets F (some 0) P I := by
  refine .bind_facts ?_
  split
  next t ht => exact meets_pure (hP.of_sourced (sourced_memberSource? hn ht))
  · refine .bind meets_session_keeping fun s hs => meets_ite (fun hreads => ?_) fun _ => ?_
    · exact meets_pure (hP.eventData hs.2 hn hreads)
    split
    · exact meets_pure (hP.plain rfl)
    next object hobj _ => exact meets_traceComputed hP htrace hn (hn.child? .object object hobj)
    next object name hobj _ =>
      refine meets_ite (fun _ => meets_pure (hP.plain rfl)) fun _ => ?_
      exact meets_traceNamed hP htrace hF (hn.child? .object object hobj) name

omit hP htrace in
lemma has_passedThrough? {facts : Facts} {callee : Node} {arguments passed : List Node} (h : F.HasAll arguments)
    (hpass : passedThrough? facts callee arguments = some passed) : F.HasAll passed := by
  unfold passedThrough? at hpass
  dsimp only at hpass
  have hfirst {first : Node} {rest : List Node} (hargs : F.HasAll (first :: rest)) : F.HasAll ([first]) := by
    simpa using hargs first mem_cons_self
  repeat' split at hpass
  all_goals cases hpass <;> first | exact h | exact hfirst h

lemma meets_traceReturned {call callee : Node} (hcall : F.Has call) (hcal : F.Has callee) :
    (traceReturned trace depth call callee).Meets F (some 0) P I := by
  refine .bind (meets_foldReturns (Q := fun ts => ∀ t ∈ ts, P t) hcall (by simp)
    fun found hfound returned hret => ?_) fun classes hclasses => ?_
  · refine .bind (htrace _ hret.some) fun t ht => meets_pure fun u hu => ?_
    exact (mem_append.mp hu).elim (hfound u) fun hu => mem_singleton.mp hu ▸ ht
  refine meets_ite (fun _ => meets_pure (hP.combine hclasses)) fun _ =>
    meets_ite (fun _ => meets_pure (hP.plain rfl)) fun _ => ?_
  refine .bind (htrace _ (hcal.child? .object)) fun base hbase => meets_pure ?_
  split
  · exact hbase
  · exact hP.plain rfl

lemma meets_traceCall {call : Node} (hcall : F.Has call) : (traceCall trace depth call).Meets F (some 0) P I := by
  refine .bind_facts ?_
  split
  · exact meets_pure (hP.plain rfl)
  next callee hcal =>
    have hcal := hcall.child? .callee callee hcal
    refine meets_ite (fun _ => meets_pure (hP.plain rfl)) fun _ => ?_
    split
    next t ht => exact meets_pure (hP.of_sourced (sourced_callSource? hcall ht))
    · split
      next one hone =>
        have hall := has_passedThrough? (fun a ha => hcall.mem_list ha) hone
        exact htrace _ (hall one mem_cons_self).some
      next arguments _ harguments =>
        exact meets_traceAll hP htrace (has_passedThrough? (fun a ha => hcall.mem_list ha) harguments)
      · exact meets_traceReturned hP htrace hcall hcal

lemma meets_taintRule (hF : F.Sound) (hn : F.Has n) : (taintRule trace depth n).Meets F (some 0) P I := by
  have hlist (f : Field) : (traceAll trace (n.list f)).Meets F (some 0) P I :=
    meets_traceAll hP htrace fun _ hm => hn.mem_list hm
  have hchild (f : Field) := htrace _ (hn.child? f)
  have hpair (f g : Field) : (do
      return Taint.combine [← trace (n.child? f), ← trace (n.child? g)] : Engine Taint).Meets F
        (some 0) P I := by
    refine .bind (hchild f) fun t ht => .bind (hchild g) fun u hu => meets_pure ?_
    exact hP.combine (by simp [ht, hu])
  have hplain : (pure .dynamic : Engine Taint).Meets F (some 0) P I := meets_pure (hP.plain rfl)
  unfold taintRule
  split
  · exact hlist .expressions
  · exact meets_ite (fun _ => hpair .left .right) fun _ => hplain
  · exact hpair .left .right
  · exact hpair .consequent .alternate
  iterate 2 exact hchild .argument
  · exact htrace _ (hn.last? .expressions)
  · exact hchild .right
  · exact hlist .elements
  · refine .bind (meets_mapM (Q := P) fun p hp => ?_) fun _ hparts => meets_pure (hP.combine hparts)
    exact htrace _ ((hn.mem_list hp).child? _)
  next hkind => exact meets_traceIdentifier hP htrace hF hn hkind
  · exact meets_traceMember hP htrace hF hn
  · exact meets_traceCall hP htrace hn
  · exact .bind meets_facts fun _ _ => meets_ite (fun _ => hlist .arguments) fun _ => hplain
  · exact hplain

end Rules

lemma meets_traceWithin (hP : F.Traces I P) (hF : F.Sound) (room depth : Nat) {n : Option Node}
    (hn : F.MaybeHas n) : (traceWithin room depth n).Meets F (some 0) P I := by
  have hdynamic : (pure .dynamic : Engine Taint).Meets F (some 0) P I := meets_pure (hP.plain rfl)
  have hlit : (pure .literal : Engine Taint).Meets F (some 0) P I := meets_pure (hP.plain rfl)
  have hcut (m : Memory) (hI : I m) : I { m with truncations := m.truncations + 1 } :=
    hP.stable { Memory.Quiet.refl m with truncations := Nat.le_succ _ } hI
  induction room generalizing depth n with
  | zero =>
    cases n with
    | none => exact hdynamic
    | some n =>
      refine meets_ite (fun _ => hlit) fun _ => ?_
      refine .bind (meets_update_keeping fun m hm hI => ?_) fun _ _ => hdynamic
      exact ⟨{ hm with }, hcut m hI⟩
  | succ room ih =>
    cases n with
    | none => exact hdynamic
    | some n =>
      refine meets_ite (fun _ => hlit) fun _ => ?_
      refine meets_consider_keeping (hP.plain rfl) hcut (fun m _ hI a ha => (hP.taints hI).get? ha)
        (fun a ha m hm hI => ⟨{ hm with }, hP.note hI ha⟩) (lists_unsearched rfl)
        fun _ r hr => ?_
      cases hr
      exact meets_taintRule hP (fun m hm => ih (depth + 1) hm) hF (hn n rfl)

lemma meets_traceSource (hP : F.Traces I P) (hF : F.Sound) {n : Option Node} (hn : F.MaybeHas n)
    (depth : Nat) : (traceSource n depth).Meets F (some 0) P I :=
  .bind meets_limits fun _ _ => meets_traceWithin hP hF _ depth hn

end ScriptAudit
