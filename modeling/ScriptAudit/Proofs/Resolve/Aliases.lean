import ScriptAudit.Proofs.Resolve.Callers

/-!
# Where a value goes keeps to the program

The expressions that a value reaches are nodes of the program.
-/

namespace ScriptAudit

open Engine Facts List Option Owner

variable {F : Facts} {as : List Alias}

def Facts.Reaches (F : Facts) (as : List Alias) : Prop :=
  ∀ a ∈ as, F.Has a.node

lemma Facts.reaches_nil : F.Reaches [] := by
  intro a ha
  cases ha

lemma meets_unread : (pure [] : Engine (List Alias)).Meets F (some 0) F.Reaches := meets_pure reaches_nil

lemma Facts.reaches_singleton {n : Node} (h : F.Has n) (route : Route) : F.Reaches [⟨n, route⟩] := by
  intro a ha
  obtain rfl := mem_singleton.mp ha
  exact h

lemma Facts.reaches_map {ns : List Node} (h : F.HasAll ns) (route : Route) : F.Reaches (ns.map (⟨·, route⟩)) := by
  intro a ha
  obtain ⟨n, hn, rfl⟩ := mem_map.mp ha
  exact h n hn

lemma Facts.Reaches.append {bs : List Alias} (ha : F.Reaches as) (hb : F.Reaches bs) : F.Reaches (as ++ bs) :=
  forall_mem_append.mpr ⟨ha, hb⟩

lemma Facts.reaches_flatten {groups : List (List Alias)} (h : ∀ g ∈ groups, F.Reaches g) :
    F.Reaches groups.flatten := forall_mem_flatten.mpr h

lemma Facts.Reaches.has_nodes (h : F.Reaches as) : ∀ n ∈ as.map (·.node), F.Has n := forall_mem_map.mpr h

lemma reaches_bindingReads (hF : F.Sound) {b : Binding} (hb : F.Declares b) (route : Route) :
    F.Reaches (bindingReads F b route) := by
  refine reaches_map (forall_mem_append.mpr ⟨hb.references, fun n hn => ?_⟩) route
  split at hn
  · obtain ⟨g, hg, hn⟩ := exists_of_mem_getD hn
    exact (hF.globals g hg).mem_memberReads hn
  · cases hn

lemma reaches_identifierReads (hF : F.Sound) (ident : Option Node) (route : Route) :
    F.Reaches (identifierReads F ident route) := by
  unfold identifierReads
  split
  next b hb =>
    obtain ⟨n, -, hb⟩ := bind_eq_some_iff.mp hb
    exact reaches_bindingReads hF (hF.model.binding? hb) route
  · exact reaches_nil

lemma has_of_mem_readsOn (hF : F.Sound) {bases : List Node} {name : String} {n : Node}
    (hn : n ∈ readsOn F.model bases name) : F.Has n := by
  obtain ⟨base, -, hn⟩ := mem_filterMap.mp hn
  obtain ⟨member, hmember, hn⟩ := bind_eq_some_iff.mp hn
  split at hn <;> cases hn
  exact hF.model.memberOf? hmember

lemma reaches_aliasesOn (hF : F.Sound) (bases : List Node) (name : String) (route : Route) :
    F.Reaches (aliasesOn F.model bases name route) := reaches_map (fun _ hn => has_of_mem_readsOn hF hn) route

lemma meets_keepReads {nodes : List Node} (h : F.HasAll nodes) (key : String × String) :
    (do update fun s => { s with reads := s.reads.insert key nodes }; return nodes : Engine (List Node)).Meets F
      (some 0) F.HasAll :=
  .bind (meets_update fun _ hm => { hm with reads := hm.reads.insert h }) fun _ _ => meets_pure h

lemma meets_globalReads (hF : F.Sound) (name : String) :
    (globalReads name).Meets F (some 0) F.HasAll := by
  refine .bind meets_session fun s hs => ?_
  split
  next nodes hnodes => exact meets_pure (hs.memory.reads.get? hnodes)
  · refine .bind_facts ?_
    cases hg : F.globals with
    | some g =>
      exact meets_keepReads (fun n hn => (hF.globals g hg).mem_reads hF.model hn) _
    | none =>
      exact meets_keepReads (fun n hn => hF.model.mem_globals hn) _

lemma meets_globalMemberReads (hF : F.Sound) (name member : String) :
    (globalMemberReads name member).Meets F (some 0) F.HasAll := by
  refine .bind meets_session fun s hs => ?_
  split
  next nodes hnodes => exact meets_pure (hs.memory.reads.get? hnodes)
  · refine .bind_model (.bind (meets_globalReads hF name) fun ns _ => ?_)
    exact meets_keepReads (fun n hn => has_of_mem_readsOn hF hn) _

lemma meets_globalAliases (hF : F.Sound) (name : String) (route : Route) :
    (globalAliases name route).Meets F (some 0) F.Reaches :=
  .bind (meets_globalReads hF name) fun _ hns => meets_pure (reaches_map hns route)

namespace Ask

variable {n : Node}

lemma meets_aliases (hn : F.Has n) : (Engine.ask (.aliases n)).Meets F (some 0) F.Reaches :=
  meets_ask hn Question.after_aliases

lemma meets_reached (hn : F.Has n) : (reached n).Meets F (some 0) F.HasAll :=
  .bind (meets_aliases hn) fun _ has => meets_pure (forall_mem_cons.mpr ⟨hn, has.has_nodes⟩)

section

variable (hF : F.Sound)
include hF

lemma meets_valueMemberReads {value : Node} (hval : F.Has value) (name : String) (route : Route) :
    (valueMemberReads value name route).Meets F (some 0) F.Reaches := by
  refine .bind_model (.bind (meets_reached hval) fun ns _ => ?_)
  exact meets_pure (reaches_aliasesOn hF ns name route)

lemma meets_thisMemberReads (o : Owner) (name : String) (route : Route) :
    (thisMemberReads o name route).Meets F (some 0) F.Reaches := by
  refine .bind_model ?_
  exact meets_pure (reaches_aliasesOn hF _ name route)

lemma meets_instances {o : Owner} (ho : o.Within F) : (instances o).Meets F (some 0) F.HasAll := by
  refine .bind_model ?_
  split
  next cls hcls =>
    refine .bind (meets_reached (ho.cls cls hcls)) fun ns _ => meets_pure fun n hn => ?_
    obtain ⟨c, -, hn⟩ := mem_filterMap.mp hn
    obtain ⟨p, hp, hn⟩ := bind_eq_some_iff.mp hn
    split at hn <;> cases hn
    exact hF.model.parent? hp
  next ctor _ hctor =>
    refine .bind (meets_callSites hF (ho.ctor ctor hctor)) fun sites hsites => ?_
    refine meets_pure fun n hn => ?_
    obtain ⟨site, hsite, rfl⟩ := mem_map.mp (mem_filter.mp hn).1
    exact hsites site hsite
  · exact meets_pure (by simp)

lemma meets_ownerMemberReads {o : Owner} (ho : o.Within F) (name : String) (route : Route) :
    (ownerMemberReads o name route).Meets F (some 0) F.Reaches := by
  refine .bind (meets_thisMemberReads hF o name route) fun inside hinside => ?_
  refine .bind (meets_mapM fun l hl =>
    meets_valueMemberReads hF (ho.literals l hl) name route) fun ofLiterals hliterals => ?_
  refine .bind (meets_instances hF ho) fun ns hns => ?_
  refine .bind (meets_mapM fun n hn => meets_valueMemberReads hF (hns n hn) name route)
    fun ofInstances hinst => meets_pure ?_
  exact (hinside.append (reaches_flatten hliterals)).append (reaches_flatten hinst)

lemma meets_prototypeMemberReads {ctorExpr : Option Node} (hexpr : F.MaybeHas ctorExpr) (name : String)
    (route : Route) : (prototypeMemberReads ctorExpr name route).Meets F (some 0) F.Reaches := by
  refine .bind_model (.bind (meets_functions hexpr 0) fun fs hfs => ?_)
  refine .bind (meets_mapM (Q := F.Reaches) fun c hc => ?_) fun reads hreads => ?_
  · refine .bind (meets_ofInstances hF (hfs c (mem_filter.mp hc).1)) fun o ho => ?_
    exact meets_ownerMemberReads hF ho name route
  · refine meets_pure (Facts.Reaches.append (reaches_map (fun n hn => ?_) route) (reaches_flatten hreads))
    split at hn
    · exact hF.model.chains.mem_getD (mem_filter.mp hn).1
    · cases hn

lemma meets_designatedReads {object : Node} (hobj : F.Has object) (name : String) (route : Route)
    {designated : Engine (List Node)} (hdesignated : designated.Meets F (some 0) F.HasAll) :
    (designatedReads object name route designated).Meets F (some 0) F.Reaches := by
  refine .bind_facts ?_
  refine meets_ite (fun _ => meets_globalAliases hF name _) fun _ => meets_ite (fun hname => ?_) fun _ => ?_
  · have hkind : object.kind = .identifier := by simp_all
    refine .bind (meets_nameOf hobj hkind) fun global _ => ?_
    exact .bind (meets_globalMemberReads hF global name) fun ns hns => meets_pure (reaches_map hns route)
  · split
    · exact .bind (meets_globalMemberReads hF _ name) fun ns hns => meets_pure (reaches_map hns route)
    · refine meets_ite (fun _ => ?_) fun _ => ?_
      · split
        next f hf =>
          refine .bind (meets_ofFunction hF (hF.model.thisFunction? hf)) fun o ho => ?_
          exact meets_ownerMemberReads hF ho name route
        · exact meets_unread
      · exact .bind hdesignated fun ns _ => meets_pure (reaches_aliasesOn hF ns name route)

lemma meets_identifierDesignates (hn : F.Has n) (hkind : n.kind = .identifier) :
    (identifierDesignates n).Meets F (some 0) F.HasAll := by
  refine .bind_facts ?_
  split
  · exact .bind (meets_nameOf hn hkind) fun name _ => meets_globalReads hF name
  next b hb =>
    have hb := hF.model.binding? hb
    have hreads := (reaches_bindingReads hF hb .directName).has_nodes
    split
    next value hval => exact meets_ite (fun _ => meets_reached (hb.initial value hval)) fun _ => meets_pure hreads
    · exact meets_pure hreads

lemma meets_thisDesignates (n : Node) : (thisDesignates n).Meets F (some 0) F.HasAll := by
  refine .bind_model ?_
  split
  · exact meets_pure (by simp)
  next f hf =>
    refine .bind (meets_ofFunction hF (hF.model.thisFunction? hf)) fun o ho => ?_
    refine .bind (meets_mapM fun l hl => meets_aliases (ho.literals l hl)) fun groups hgroups => meets_pure ?_
    have hthis : F.HasAll (Node.thisNodes o.functions) := fun n hn => Node.below_of_mem_thisNodes ho.functions hn
    exact forall_mem_append.mpr ⟨hthis, (reaches_flatten hgroups).has_nodes⟩

end

mutual

lemma meets_designates (hF : F.Sound) : ∀ {n : Node}, F.Has n →
    (designates n).Meets F (some 0) F.HasAll
  | .mk h ls, hn => by
    rw [designates]
    split
    next hkind =>
      exact .bind (meets_identifierDesignates hF hn hkind) fun ns hns =>
        meets_pure (forall_mem_cons.mpr ⟨hn, hns⟩)
    · split
      next name _ =>
        exact .bind (meets_objectMemberReads hF name hn.links) fun as has =>
          meets_pure (forall_mem_cons.mpr ⟨hn, has.has_nodes⟩)
      · exact meets_pure (forall_mem_cons.mpr ⟨hn, by simp⟩)
    · exact .bind (meets_thisDesignates hF _) fun ns hns => meets_pure (forall_mem_cons.mpr ⟨hn, hns⟩)
    · exact meets_reached hn

lemma meets_objectMemberReads (hF : F.Sound) (name : String) : ∀ {ls : List Link},
    Node.LinksBelow F.model.root ls → (objectMemberReads name ls).Meets F (some 0) F.Reaches
  | [], _ => meets_unread
  | (f, some c) :: rest, hls => by
    refine meets_ite (fun _ => ?_) fun _ => meets_objectMemberReads hF name hls.tail
    exact meets_designatedReads hF hls.head name .directName (meets_designates hF hls.head)
  | (_, none) :: rest, hls => by
    rw [objectMemberReads]
    exact meets_objectMemberReads hF name hls.tail

end

section

variable (hF : F.Sound)
include hF

lemma meets_memberReads {object : Option Node} (h : F.MaybeHas object) (name : String) (route : Route) :
    (memberReads object name route).Meets F (some 0) F.Reaches := by
  unfold memberReads
  split
  · exact meets_designatedReads hF (h _ rfl) name route (meets_designates hF (h _ rfl))
  · exact meets_unread

lemma meets_locationReads {left : Option Node} (h : F.MaybeHas left) (route : Route) :
    (locationReads left route).Meets F (some 0) F.Reaches := by
  unfold locationReads
  split
  · exact meets_unread
  next left =>
    have hleft := h left rfl
    have hobj := hleft.child? .object
    refine .bind_facts ?_
    split
    next hkind =>
      split
      next b hb => exact meets_pure (reaches_bindingReads hF (hF.model.binding? hb) route)
      · exact .bind (meets_nameOf hleft hkind) fun name _ => meets_globalAliases hF name _
    · dsimp only
      split
      · refine .bind (meets_values (hleft.child? .property) (by omega)) fun names _ => ?_
        exact .bind (meets_mapM fun name _ => meets_memberReads hF hobj name _)
          fun reads hreads => meets_pure (reaches_flatten hreads)
      next name _ =>
        split
        next o ho =>
          refine meets_ite (fun _ => ?_) fun _ => meets_memberReads hF hobj name _
          exact meets_prototypeMemberReads hF ((hobj o ho).child? .object) name _
        · exact meets_unread
    · exact meets_unread

lemma has_containerOf? (ref : Node) : F.MaybeHas (containerOf? F.model ref) := by
  refine .bind (fun _ => hF.model.parent?) fun p hp => ?_
  split
  · exact (hp.child? .callee).bind fun callee hcal => (hcal.child? .object).ite
  · exact .ite ((hp.child? .left).bind fun left hleft => (hleft.child? .object).ite)

lemma meets_itemReadsAt (node : Node) (route : Route) : (itemReadsAt node route).Meets F (some 0) F.Reaches := by
  refine .bind_facts ?_
  dsimp only
  split
  · exact meets_unread
  next p hp =>
    have hp : F.Has p := hF.model.parent? hp
    refine meets_ite (fun _ => meets_ite (fun _ => ?_) fun _ => ?_) fun _ => meets_ite (fun _ => ?_) fun _ => ?_
    · exact meets_pure (reaches_singleton hp route)
    · split
      next call method hcall _ =>
        have hcall : F.Has call := hF.model.calledBy? hcall
        refine meets_ite (fun _ => meets_pure (reaches_singleton hcall route)) fun _ => ?_
        split
        next index callback _ hcallback =>
          have hcallback := hcall.mem_list (mem_of_mem_head? hcallback)
          refine .bind (meets_callables hcallback.some 0) fun fs _ => meets_pure ?_
          intro a ha
          obtain ⟨b, hb, ha⟩ := mem_flatMap.mp ha
          obtain ⟨f, -, hb⟩ := mem_flatMap.mp (mem_filter.mp hb).1
          exact reaches_bindingReads hF (hF.model.paramsOf hb) route a ha
        · exact meets_unread
      · exact meets_unread
    · exact meets_pure (reaches_identifierReads hF _ route)
    · exact meets_unread

lemma meets_passedContainers (container : Node) :
    (passedContainers container).Meets F (some 0) F.HasAll := by
  refine .bind_model ?_
  split
  next b hb =>
    refine meets_ite (fun _ => ?_) fun _ => meets_pure (by simp)
    refine .bind (meets_argumentPaths hF (hF.model.rootBinding? hb) none) fun ps hps => ?_
    exact .bind (meets_mapM fun p hp => meets_designates hF (hps p hp)) fun groups hgroups =>
      meets_pure (forall_mem_flatten.mpr hgroups)
  · exact meets_pure (by simp)

lemma meets_itemReads {container : Node} (h : F.Has container) (route : Route) :
    (itemReads container route).Meets F (some 0) F.Reaches := by
  refine .bind (meets_designates hF h) fun ns _ => ?_
  refine .bind (meets_passedContainers hF container) fun ms _ => ?_
  exact .bind (meets_mapM fun n _ => meets_itemReadsAt hF n route) fun groups hgroups =>
    meets_pure (reaches_flatten hgroups)

lemma meets_containerReads (b : Binding) (route : Route) : (containerReads b route).Meets F (some 0) F.Reaches := by
  refine .bind_model ?_
  refine .bind (meets_mapM (Q := F.Reaches) fun c hc => ?_) fun groups hgroups =>
    meets_pure (reaches_flatten hgroups)
  obtain ⟨ref, -, hc⟩ := mem_filterMap.mp hc
  exact meets_itemReads hF (has_containerOf? hF ref c hc) route

lemma meets_callbackReads (n : Node) {call : Node} (hcall : F.Has call) (route : Route) :
    (callbackReads n call route).Meets F (some 0) F.Reaches := by
  refine .bind_facts ?_
  split
  · exact meets_unread
  · dsimp only
    refine .bind (meets_callTargets hcall 0) fun targets _ => ?_
    refine .bind (meets_mapM (Q := F.Reaches) fun b hb => ?_) fun reads hreads =>
      meets_pure (reaches_flatten hreads)
    obtain ⟨⟨f, offset⟩, -, hb⟩ := mem_flatMap.mp hb
    have hb : b ∈ F.model.paramsOf f := by
      split at hb
      · cases hb
      · exact (mem_filter.mp hb).1
    refine .bind (meets_containerReads hF b _) fun reads hreads => meets_pure ?_
    exact (reaches_bindingReads hF (hF.model.paramsOf hb) _).append hreads

end

lemma has_of_mem_mergeArguments {arguments : List Node} (h : F.HasAll arguments)
    (hn : n ∈ mergeArguments arguments) : F.Has n := by
  unfold mergeArguments at hn
  split at hn
  · split at hn
    · exact h n (mem_cons_of_mem _ hn)
    · exact h n hn
  · cases hn

lemma meets_mergeReads (hF : F.Sound) (n : Node) {call : Node} (hcall : F.Has call)
    (route : Route) : (mergeReads n call route).Meets F (some 0) F.Reaches := by
  unfold mergeReads
  dsimp only
  refine meets_ite (fun _ => meets_unread) fun _ => ?_
  split
  · exact meets_unread
  next t ht =>
    have ht : F.Has t := by
      split at ht
      · obtain ⟨callee, hcal, ht⟩ := bind_eq_some_iff.mp ht
        exact (hcall.child? .callee callee hcal).child? .object t ht
      next hargs =>
        split at ht <;> cases ht
        have hmem : t ∈ mergeArguments (call.list .arguments) := by
          rw [hargs]
          exact mem_cons_self
        exact has_of_mem_mergeArguments (fun a ha => hcall.mem_list ha) hmem
      · cases ht
    refine .bind (meets_designates hF ht) fun ns hns => meets_pure (reaches_map ?_ route)
    refine forall_mem_append.mpr ⟨fun m hm => hns m (mem_filter.mp hm).1, ?_⟩
    simpa using hcall

lemma meets_propertyFlow (hF : F.Sound) (hn : F.Has n) (property : Node) (route : Route) :
    (propertyFlow n property route).Meets F (some 0) F.Reaches := by
  refine .bind_model ?_
  split
  next literal name hlit _ =>
    refine meets_ite (fun _ => meets_unread) fun _ => ?_
    refine .bind (meets_valueMemberReads hF (hF.model.parent? hlit) name _)
      fun reads hreads => meets_ite (fun _ => ?_) fun _ => meets_pure hreads
    refine .bind (meets_ofFunction hF hn) fun o _ => ?_
    exact .bind (meets_thisMemberReads hF o name _) fun _ h => meets_pure (hreads.append h)
  · exact meets_unread

lemma meets_methodFlow (hF : F.Sound) (hn : F.Has n) (method : Node) (route : Route) :
    (methodFlow n method route).Meets F (some 0) F.Reaches := by
  refine .bind_model ?_
  split
  · exact meets_unread
  next cls hcls =>
    have hcls : F.Has cls := hF.model.grandparent? hcls
    refine meets_ite (fun _ => meets_pure (reaches_singleton hcls _)) fun _ => ?_
    split
    next name _ =>
      refine meets_ite (fun _ => meets_valueMemberReads hF hcls name _) fun _ => ?_
      exact .bind (meets_ofFunction hF hn) fun o ho => meets_ownerMemberReads hF ho name _
    · exact meets_unread

lemma meets_returnFlow (hF : F.Sound) {f : Option Node} (hf : F.MaybeHas f) (route : Route) :
    (returnFlow f route).Meets F (some 0) F.Reaches := by
  unfold returnFlow
  split
  · exact meets_unread
  · refine .bind (meets_callSites hF (hf _ rfl)) fun sites hsites => meets_pure fun a ha => ?_
    obtain ⟨site, hsite, rfl⟩ := mem_map.mp ha
    exact hsites site (mem_filter.mp hsite).1

lemma meets_flowFrom (hF : F.Sound) {parent : Node} (hn : F.Has n) (hpar : F.Has parent) (field : Field)
    (route : Route) : (flowFrom n parent field route).Meets F (some 0) F.Reaches := by
  have hhere := reaches_singleton hpar route
  refine .bind_facts ?_
  split
  · exact meets_pure (reaches_identifierReads hF _ route)
  · refine meets_ite (fun _ => ?_) fun _ => meets_unread
    exact .bind (meets_locationReads hF (hpar.child? .left) route) fun reads hreads =>
      meets_pure (hhere.append hreads)
  · exact meets_propertyFlow hF hn parent route
  · exact meets_methodFlow hF hn parent route
  · refine .bind (meets_callbackReads hF n hpar route) fun reads hreads => ?_
    exact .bind (meets_mergeReads hF n hpar route) fun merged hmerged => meets_pure (hreads.append hmerged)
  · refine .bind (meets_callbackReads hF n hpar route) fun reads hreads => ?_
    exact .bind (meets_mergeReads hF n hpar route) fun merged hmerged => meets_pure (hreads.append hmerged)
  · exact meets_returnFlow hF (fun f hf => hF.model.enclosingFunction? hf) route
  · exact meets_returnFlow hF hpar.some route
  · exact meets_pure hhere
  · refine meets_pure ?_
    split
    · exact reaches_nil
    · exact hhere
  · refine meets_pure ?_
    split
    · exact hhere
    · exact reaches_nil
  · refine meets_ite (fun _ => ?_) fun _ => meets_unread
    split
    next call hcall =>
      refine meets_pure ?_
      split
      · exact reaches_singleton (hF.model.calledBy? hcall) route
      · exact reaches_nil
    · exact meets_unread
  · exact meets_unread

lemma meets_flowStep (hF : F.Sound) (hn : F.Has n) (route : Route) : (flowStep n route).Meets F (some 0) F.Reaches := by
  refine .bind_facts ?_
  have hdecl : F.Reaches (if n.kind == .functionDeclaration || n.kind == .classDeclaration then
        identifierReads F (n.child? .id) route
      else []) := by
    split
    · exact reaches_identifierReads hF _ route
    · exact reaches_nil
  dsimp only
  split
  next parent field hpar _ =>
    exact .bind (meets_flowFrom hF hn (hF.model.parent? hpar) field route) fun _ h => meets_pure (hdecl.append h)
  · exact meets_pure hdecl

end Ask

/-- A flow through nodes of the program. -/
structure Flow.Within (F : Facts) (fl : Flow) : Prop where
  found : F.Reaches fl.found
  work : ∀ w ∈ fl.work, F.Has w.1.node

lemma Flow.Within.take {cap maxDepth dist : Nat} {fl : Flow} (hfl : fl.Within F) (has : F.Reaches as) :
    (fl.take cap maxDepth dist as).Within F := by
  induction as generalizing fl with
  | nil => exact hfl
  | cons a rest ih =>
    obtain ⟨ha, hrest⟩ := forall_mem_cons.mp has
    unfold Flow.take
    split
    · exact ih hfl hrest
    · have hnext : Flow.Within F { fl with
          seen := a.node.ident :: fl.seen
          found := fl.found ++ [a]
          work := if dist + 1 < maxDepth then fl.work ++ [(a, dist + 1)] else fl.work } := by
        refine ⟨hfl.found.append (reaches_singleton ha a.route), ?_⟩
        split
        · exact forall_mem_append.mpr ⟨hfl.work, by simpa using ha⟩
        · exact hfl.work
      dsimp only
      split
      · exact ⟨hnext.found, hnext.work⟩
      · exact ih hnext hrest

lemma Ask.meets_follow (hF : F.Sound) (cap maxDepth : Nat) {fl : Flow} (hfl : fl.Within F) :
    (follow cap maxDepth fl).Meets F (some 0) (·.Within F) := by
  fun_induction follow cap maxDepth fl with
  | case1 | case2 => exact meets_pure hfl
  | case3 fl a dist work hwork _ ih =>
    have hall := hfl.work
    rw [hwork] at hall
    obtain ⟨ha, hrest⟩ := forall_mem_cons.mp hall
    refine .bind (meets_flowStep hF ha a.route) fun next hnext => ?_
    have htaken : (Flow.take cap maxDepth dist { fl with work := work } next).Within F :=
      Flow.Within.take ⟨hfl.found, hrest⟩ hnext
    refine meets_ite (fun _ => ?_) fun _ => ih next htaken
    exact .bind meets_truncate fun _ _ => meets_pure htaken

lemma Ask.meets_follow_start (hF : F.Sound) (cap maxDepth : Nat) {n : Node} (hn : F.Has n) (route : Route) :
    (follow cap maxDepth { seen := [n.ident], work := [(⟨n, route⟩, 0)] }).Meets F (some 0)
      fun fl => F.Reaches fl.found :=
  (meets_follow hF cap maxDepth ⟨reaches_nil, by simpa using hn⟩).mono fun _ h => h.found

end ScriptAudit
