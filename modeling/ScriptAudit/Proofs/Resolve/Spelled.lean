import ScriptAudit.Proofs.Resolve.Judged

/-!
# Expressions have the texts they spell

The rules give an expression the texts that it spells, whatever else the program holds.
-/

namespace ScriptAudit

open Ask Engine List Model Node Question

/-- One call is being gone through, and the open questions are about texts. -/
structure Session.Through (s : Session) (frame : Frame) (opened : List Key) : Prop where
  frames : s.frames = [frame]
  visited : s.visited = opened
  topics : ∀ k ∈ opened, k.topic = .values

namespace Session.Through

variable {s : Session} {frame : Frame} {opened : List Key}

section

variable (h : s.Through frame opened)
include h

lemma mark {k : Key} (hk : k.topic = .values) : Through { s with visited := k :: s.visited } frame (k :: opened) where
  frames := h.frames
  visited := by rw [h.visited]
  topics := forall_mem_cons.mpr ⟨hk, h.topics⟩

lemma grow {t : Session} (hst : s.Grows t) : t.Through frame opened :=
  ⟨hst.frames.trans h.frames, hst.visited.trans h.visited, h.topics⟩

lemma frames_ne_nil : s.frames ≠ [] := by
  simp [h.frames]

lemma fresh {k : Key} (hk : k.topic ≠ .values) : k ∉ s.visited := by
  rw [h.visited]
  intro hmem
  exact hk (h.topics k hmem)

lemma boundArgument? (b : Binding) : s.boundArgument? b = (frame.arguments.lookup b.uid).map (0, ·) := by
  unfold Session.boundArgument?
  rw [h.frames]
  simp [List.zipIdx]

end

end Session.Through

variable {F : Facts} {s : Session} {frame : Frame} {opened : List Key} {reading : Reading} {n : Node} {depth : Nat}
  {texts : List String}

lemma Node.ownText?_def (n : Node) : (n.literalText?.orElse fun _ => plainTemplate? n) = n.ownText? := rfl

lemma Node.kind_of_isWritten (h : n.isWritten = true) : n.kind = .literal ∨ n.kind = .templateLiteral := by
  by_cases hlit : n.kind = .literal
  · exact .inl hlit
  · by_cases htemplate : n.kind = .templateLiteral
    · exact .inr htemplate
    · simp [isWritten, ownText?, literalText?, plainTemplate?, hlit, htemplate] at h

lemma gives_silent (hown : n.ownText? = none) (hrule : valuesRule n depth = none) :
    (ask (.values n none depth)).Gives F s [] := by
  refine gives_ask ?_
  simp only [rule, ownText?_def, hown, hrule]
  exact gives_consider_none

lemma gives_written (h : n.isWritten = true) (depth : Nat) : (ask (.values n none depth)).Gives F s n.ownTexts := by
  unfold ownTexts
  cases hown : n.ownText? with
  | some t =>
    refine gives_ask ?_
    simp only [rule, ownText?_def, hown]
    exact gives_pure [t]
  | none =>
    have hkind : n.kind = .literal := by simpa [isWritten, hown] using h
    refine gives_silent hown ?_
    simp only [valuesRule, hkind]

lemma gives_refused (hs : s.Through frame opened) (hown : n.ownText? = none)
    (hk : ⟨.values, n.ident, none⟩ ∈ opened) : (ask (.values n none depth)).Gives F s [] := by
  refine gives_ask ?_
  simp only [rule, ownText?_def, hown]
  cases valuesRule n depth with
  | none => exact gives_consider_none
  | some rule => exact gives_consider_refused hs.frames_ne_nil (hs.visited ▸ hk) rule

lemma gives_values (hs : s.Through frame opened) (hn : Opens F.limits opened depth n)
    {rule : Engine (List String)} (hrule : valuesRule n depth = some rule)
    (h : rule.Gives F { s with visited := ⟨.values, n.ident, none⟩ :: s.visited } texts) :
    (ask (.values n none depth)).Gives F s texts := by
  refine gives_ask ?_
  simp only [Question.rule, ownText?_def, hn.ownText, hrule]
  exact gives_consider hn.depth hs.frames_ne_nil (hs.visited ▸ hn.fresh) h

namespace Ask

variable {f : Node → List String} {b : Binding} {name : String} {sites : List CallSite}

lemma gives_bindingValues_argument (hs : s.Through frame opened) {argument : Node}
    (hlook : frame.arguments.lookup b.uid = some ⟨argument, none⟩) (hwrote : argument.isWritten = true)
    (h : argument.ownText? = none → ∀ e, b.fallback = some e → (ask (.values e none (depth + 1))).Gives F s (f e)) :
    (bindingValues b depth).Gives F s ((argument.ownText?.map fun t => [t]).getD ((b.fallback.map f).getD [])) := by
  have hbound : (boundArgument? b).Gives F s (some (0, ⟨argument, none⟩)) := by
    have hbound := gives_bound (F := F) (s := s) b
    rwa [hs.boundArgument?, hlook] at hbound
  have hpass : (underOuter 0 (ask (.values argument none (depth + 1)))).Gives F s argument.ownTexts :=
    gives_underOuter (gives_written hwrote (depth + 1))
  unfold ownTexts at hpass
  cases hown : argument.ownText? with
  | some t =>
    rw [hown] at hpass
    exact judges_gives.bindingValues_passed (f := f) hbound hpass fun hnil => by cases hnil
  | none =>
    rw [hown] at hpass
    exact judges_gives.bindingValues_passed hbound hpass fun _ => h hown

lemma gives_bindingValues_fixed (hs : s.Through frame opened) (hlook : frame.arguments.lookup b.uid = none)
    (hsort : b.sort.isVariable = true) (hviols : b.violations = []) (hkey : b.key = none)
    (h : ∀ e, b.initial = some e → (ask (.values e none (depth + 1))).Gives F s (f e)) :
    (bindingValues b depth).Gives F s ((b.initial.map f).getD []) := by
  have hbound : (boundArgument? b).Gives F s none := by
    have hbound := gives_bound (F := F) (s := s) b
    rwa [hs.boundArgument?, hlook] at hbound
  have hlocal := BindingSort.isLocal_of_isVariable hsort
  have hnamed := judges_gives.bindingValues_named (f := f) hbound hlocal (fun _ _ => hkey) fun e he => h e (by
    simpa [hviols] using he)
  simpa [Binding.textsWith, hviols] using hnamed

lemma gives_callSites {function : Node} (h : s.callSites.get? function.ident = some sites) :
    (callSites function).Gives F s sites := by
  refine Finds.bind finds_session fun t u _ ht => ?_
  rw [ht.1.callSites, h]
  exact gives_pure sites

lemma gives_paramValues (hs : s.Through frame opened) {function : Node} {index : Nat} (hkey : b.key = none)
    (hrest : b.rest = false) (hfun : b.function = some function)
    (hidx : b.paramIndex = some index) (hsites : s.callSites.get? function.ident = some sites)
    (hwrote : ∀ a ∈ argumentsAt index sites, a.isWritten = true) (depth : Nat) : (paramValues b none depth).Gives F s
      (unite F.limits.maxValues ((argumentsAt index sites).map ownTexts)) := by
  have hkeys : b.key.toList ++ (none : Option String).toList = [] := by rw [hkey]; rfl
  have hread (s : Session) (hsites : s.callSites.get? function.ident = some sites) :
      (do readPaths [] depth none (← argumentPaths b none)).Gives F s
        ((argumentsAt index sites).map ownTexts) := by
    have hpaths : (argumentPaths b none).Gives F s (sites.flatMap (pathsAt index false)) := by
      unfold argumentPaths
      simp only [hfun, hidx, hrest, hkey]
      exact .bind (gives_callSites hsites) (gives_pure _)
    exact .bind hpaths (judges_gives.readArguments fun a ha => gives_written (hwrote a ha) (depth + 1))
  unfold paramValues
  simp only [hkeys]
  refine Finds.bind finds_session fun t u htu ht => ?_
  have hframed : t.frames.isEmpty = false := by rw [ht.1.frames, hs.frames]; rfl
  have hk := (hs.grow htu).fresh (k := ⟨.callers, b.identifier.ident, none⟩) (by simp)
  simp only [hframed, isEmpty_nil, if_true]
  refine Finds.bind (finds_guarded hk (hread _ (by rw [htu.callSites]; exact hsites))) ?_
  rintro _ v - ⟨whole, rfl⟩
  refine Gives.bind gives_limits ?_
  simp only [Bool.and_false]
  exact gives_pure _

lemma gives_bindingValues_supplied (hs : s.Through frame opened) (hlook : frame.arguments.lookup b.uid = none)
    (hsort : b.sort = .param) (hinit : b.initial = none) (hkey : b.key = none)
    (hparam : (paramValues b none (depth + 1)).Gives F s texts)
    (h : ∀ e, b.fallback = some e → (ask (.values e none (depth + 1))).Gives F s (f e)) :
    (bindingValues b depth).Gives F s ((b.fallback.map fun e => unite F.limits.maxValues [texts, f e]).getD texts) := by
  have hdecl : (declaredValues b depth).Gives F s [] := by
    unfold declaredValues
    simp only [hinit, hkey]
    by_cases hconstant : b.isConstant = true
    · simp only [hconstant, Bool.not_true]
      exact .bind (gives_pure []) (gives_pure [])
    · simp only [hconstant]
      exact gives_pure []
  refine .bind (gives_bound b) ?_
  rw [hs.boundArgument?, hlook]
  simp only [hsort, Option.map_none]
  refine .bind hdecl ?_
  simp only [Binding.isParam, hsort]
  refine .bind hparam ?_
  cases hfall : b.fallback with
  | none => exact gives_pure texts
  | some e => exact .bind (h e hfall) (judges_gives.union _)

lemma gives_identifierValues_foreign (hname : n.name = some name) (hfree : F.model.isUnbound n = true)
    (hglob : F.definitions name = []) : (identifierValues n depth).Gives F s [] := by
  by_cases hundef : F.model.isUnboundName n "undefined" = true
  · refine .bind gives_model ?_
    simp only [hundef]
    exact gives_pure []
  · have hvals : (identifierValues n depth).Gives F s
        (unite F.limits.maxValues ((F.definitions name).map fun _ => [])) :=
      judges_gives.identifierValues_global (Bool.eq_false_iff.mpr hundef)
        (binding?_of_isUnbound hfree) hname (by simp [hglob])
    rwa [hglob] at hvals

lemma gives_functions_foreign (hname : n.name = some name) (hfree : F.model.isUnbound n = true)
    (hglob : F.definitions name = []) (hs : s.Through frame opened) (depth : Nat) :
    (ask (.functions n depth)).Gives F s [] := by
  have hkind : n.kind = .identifier := kind_of_isUnbound hfree
  refine gives_ask ?_
  simp only [rule, functionsRule, hkind]
  by_cases hd : F.limits.maxDepth < depth
  · exact gives_consider_cut hd _
  · refine gives_consider (Nat.not_lt.mp hd) hs.frames_ne_nil (hs.fresh (by simp)) ?_
    have hfuns : (identifierFunctions n depth).Gives F
        { s with visited := ⟨.functions, n.ident, none⟩ :: s.visited }
        (mergedFunctions F.limits ((F.definitions name).map fun _ => [])) :=
      judges_gives.identifierFunctions_global (binding?_of_isUnbound hfree) hname (by simp [hglob])
    have hnil : mergedFunctions F.limits [] = [] := take_nil
    rwa [hglob, map_nil, hnil] at hfuns

lemma gives_callValues_foreign (hs : s.Through frame opened) {callee e : Node}
    (hcal : n.child? .callee = some callee) (hname : callee.name = some name)
    (hfree : F.model.isUnbound callee = true) (hglob : F.definitions name = []) {g : String → String}
    (hg : globalTransform? name = some g) (he : (n.list .arguments).head? = some e)
    (h : (ask (.values e none (depth + 1))).Gives F s texts) : (callValues n depth).Gives F s (texts.map g) := by
  have hreads : callee.reads "call" = false := by
    have hkind : callee.kind = .identifier := kind_of_isUnbound hfree
    simp [reads, memberName?, hkind]
  have htargets : (callTargets n (depth + 1)).Gives F s [] := by
    unfold callTargets
    simp only [hcal, hreads]
    exact .bind (.bind (gives_functions_foreign hname hfree hglob hs (depth + 1)) (gives_pure [])) (gives_pure [])
  exact judges_gives.callValues_global hcal (.bind htargets (gives_pure [])) hfree hname hg he h

lemma finds_literalShape (hplain : n.isPlainObject = true) :
    (literalShape n depth).Finds F s fun ref t => ∃ r, ref = some r ∧ t.shapes[r]? = some n.plainShape := by
  refine Gives.bindFinds (judges_gives.plainProperties hplain) ?_
  refine .bind (finds_newShape _) fun ref t _ href => ?_
  exact finds_pure fun u hu => ⟨ref, rfl, hu.shapes ref _ href⟩

def Held (held : Option Node) (ref : Option ShapeRef) (t : Session) : Prop :=
  match held with
  | none => ref = none
  | some literal => ∃ r, ref = some r ∧ t.shapes[r]? = some literal.plainShape

lemma finds_askLiteral (hplain : n.isPlainObject = true) (hd : depth ≤ F.limits.maxDepth) (hframes : s.frames ≠ [])
    (hk : ⟨.object, n.ident, none⟩ ∉ s.visited) : (ask (.object n depth)).Finds F s (Held (some n)) := by
  have hkind : n.kind = .objectExpression := by
    simp only [isPlainObject, Bool.and_eq_true, beq_iff_eq] at hplain
    exact hplain.1
  refine finds_ask ?_
  simp only [rule, objectRule, hkind]
  exact finds_consider hd hframes hk (fun _ _ _ h => h) (finds_literalShape hplain)

lemma gives_askObject_written (h : n.isWritten = true) (depth : Nat) : (ask (.object n depth)).Gives F s none := by
  refine gives_ask ?_
  rcases kind_of_isWritten h with hkind | hkind
  · simp only [rule, objectRule, hkind]
    exact gives_consider_none
  · simp only [rule, objectRule, hkind]
    exact gives_consider_none

lemma finds_askObject {held : Option Node} (h : HoldsObject F.limits reading depth n held) (hs : s.Through frame opened)
    (hreading : reading.HoldsIn F frame s.callSites) : (ask (.object n depth)).Finds F s (Held held) := by
  have hbound (b : Binding) : Session.boundArgument? { s with visited := ⟨.object, n.ident, none⟩ :: s.visited } b =
        (frame.arguments.lookup b.uid).map (0, ·) :=
    hs.boundArgument? b
  cases h with
  | literal hplain hd => exact finds_askLiteral hplain hd hs.frames_ne_nil (hs.fresh (by simp))
  | written hwrote => exact gives_askObject_written hwrote depth
  | @argument text fallback hkind hmem =>
    obtain ⟨b, argument, hb, hlook, hwrote, -⟩ := hreading _ _ hmem
    refine finds_ask ?_
    simp only [rule, objectRule, hkind]
    by_cases hd : F.limits.maxDepth < depth
    · exact gives_consider_cut hd _
    refine gives_consider (Nat.not_lt.mp hd) hs.frames_ne_nil (hs.fresh (by simp)) ?_
    refine .bind gives_model ?_
    rw [hb]
    refine .bind (gives_bound b) ?_
    rw [hbound, hlook]
    exact gives_underOuter (.bind (gives_askObject_written hwrote (depth + 1)) (gives_pure none))
  | @named literal hkind hmem hplain hid hd =>
    obtain ⟨b, hb, hlook, hsort, hviols, -, hinit, hmembers, -⟩ := hreading _ _ hmem
    refine finds_ask ?_
    simp only [rule, objectRule, hkind]
    refine finds_consider (Nat.le_of_lt hd) hs.frames_ne_nil (hs.fresh (by simp)) (fun _ _ _ h => h) ?_
    refine Gives.bindFinds gives_model ?_
    rw [hb]
    refine Gives.bindFinds (gives_bound b) ?_
    rw [hbound, hlook]
    have hdecl : (declaredShape b depth).Finds F
        { s with visited := ⟨.object, n.ident, none⟩ :: s.visited } (Held (some literal)) := by
      unfold declaredShape
      simp only [hsort, if_true, hinit]
      refine finds_askLiteral hplain hd hs.frames_ne_nil ?_
      rw [mem_cons, not_or]
      refine ⟨fun heq => hid (Key.mk.inj heq).2.1, hs.fresh (by simp)⟩
    refine .bind hdecl ?_
    rintro _ t ht ⟨r, rfl, hr⟩
    simp only [hviols, filterMap_nil]
    refine Gives.bindFinds (gives_pure (some r)) (Gives.bindFinds gives_model ?_)
    simp only [hmembers, if_true]
    exact finds_pure fun u hu => ⟨r, rfl, hu.shapes r _ hr⟩

lemma gives_memberValues (hs : s.Through frame opened) (hreading : reading.HoldsIn F frame s.callSites)
    {object literal e : Node} (hname : n.memberName? = some name) (hobj : n.child? .object = some object)
    (hkind : object.kind = .identifier) (hholds : HoldsObject F.limits reading (depth + 2) object (some literal))
    (hk : ⟨.values, object.ident, some name⟩ ∉ opened) (hlen : name ≠ "length")
    (hdig : Text.isDigits name = false) (he : literal.literalProperties.get? name = some e) (htexts : texts ≠ [])
    (h : (ask (.values e none (depth + 2))).Gives F
      { s with visited := ⟨.values, object.ident, some name⟩ :: s.visited } texts) :
    (memberValues n depth).Gives F s texts := by
  have hd : depth + 1 ≤ F.limits.maxDepth := by
    cases hholds with
    | literal _ hd => omega
    | named _ _ _ _ hd => omega
  obtain ⟨b, hb, hlook, -, -, -, -, -, hglo⟩ : (Meaning.fixed (some literal)).HoldsOf F frame
      s.callSites object := by
    cases hholds with
    | literal hplain => simp [isPlainObject, hkind] at hplain
    | named _ hmem => exact hreading _ _ hmem
  have hmember : F.globalMember? n = none := by
    unfold Facts.globalMember?
    cases hg : F.globals with
    | none => rfl
    | some g =>
      have hobject' : g.isGlobalObject object = false := by simpa [Facts.isGlobalObject, hg] using hglo
      simp [Globals.globalMember?, hname, hobj, hobject']
  have hmark := hs.mark (k := ⟨.values, object.ident, some name⟩) rfl
  have hbound : (boundOf? (F.model.rootBinding? object)).Gives F
      { s with visited := ⟨.values, object.ident, some name⟩ :: s.visited } none := by
    simp only [rootBinding?, hkind, beq_self_eq_true, if_true, hb]
    have hbound := gives_bound (F := F)
      (s := { s with visited := ⟨.values, object.ident, some name⟩ :: s.visited }) b
    rwa [hmark.boundArgument?, hlook] at hbound
  have hval : (objectProperty (some object) name (depth + 2)).Gives F
      { s with visited := ⟨.values, object.ident, some name⟩ :: s.visited } (some e) := by
    refine Finds.bind (finds_askObject hholds hmark hreading) ?_
    rintro _ t - ⟨r, rfl, hr⟩
    rw [← he]
    exact gives_propertyOf? hr name
  have hdefined := judges_gives.definedPropertyValues (f := fun _ => texts) hval
    (by rintro _ ⟨⟩; exact h) fun hnil => absurd hnil htexts
  have htext : definedTexts F.limits (fun _ => texts) (some e) (F.model.assignedMembers object name) = texts := by
    simp [definedTexts, htexts]
  rw [htext] at hdefined
  have helem : (elementAt? object name (depth + 1)).Gives F
      { s with visited := ⟨.values, object.ident, some name⟩ :: s.visited } none := by
    unfold elementAt?
    simp only [hdig]
    exact gives_pure none
  have hprop := judges_gives.propertyValues (by simp [hkind]) hbound helem hdefined
    fun hnil => absurd hnil htexts
  have hofGlobal : (globalMemberValues n depth).Gives F s [] :=
    judges_gives.globalMemberValues_nil fun g hg => by simp [hmember] at hg
  refine judges_gives.memberValues hname hofGlobal hlen hobj (gives_ask ?_)
  simp only [rule]
  exact gives_consider hd hs.frames_ne_nil (hs.visited ▸ hk) hprop

end Ask

lemma gives_named (hs : s.Through frame opened) (hn : Opens F.limits opened depth n)
    (hkind : n.kind = .identifier) {b : Binding} (hb : F.model.binding? n = some b)
    (h : (bindingValues b depth).Gives F { s with visited := ⟨.values, n.ident, none⟩ :: s.visited } texts) :
    (ask (.values n none depth)).Gives F s texts := by
  have hrule : valuesRule n depth = some (identifierValues n depth) := by simp only [valuesRule, hkind]
  exact gives_values hs hn hrule (judges_gives.identifierValues hb h)

lemma Spells.gives (h : Spells F.limits reading opened depth n texts) (hs : s.Through frame opened)
    (hreading : reading.HoldsIn F frame s.callSites) : (ask (.values n none depth)).Gives F s texts := by
  -- The session changes along the evaluation: below an expression, its own question is open.
  induction h generalizing s with
  | written hwrote => exact gives_written hwrote _
  | cut hown hd =>
    refine gives_ask ?_
    simp only [rule, ownText?_def, hown]
    exact gives_consider_cut hd _
  | refused hown hk => exact gives_refused hs hown hk
  | given hn hrule => exact gives_values hs hn hrule (gives_pure _)
  | silent hown hrule => exact gives_silent hown hrule
  | concat f hn hkind hplus _ ih =>
    refine gives_values hs hn (by simp only [valuesRule, hkind, hplus]; rfl) ?_
    exact judges_gives.concatenated fun e he => ih e he (hs.mark rfl) hreading
  | template f hn hkind _ ih =>
    refine gives_values hs hn (by simp only [valuesRule, hkind]; rfl) ?_
    exact judges_gives.templateValues fun e he => ih e he (hs.mark rfl) hreading
  | @branches _ depth n f hn hkind hself _ ih =>
    have hrule : valuesRule n depth = some (branchValues n depth) := by
      cases hk : n.kind <;> simp [Kind.isBranching, hk] at hkind <;> simp only [valuesRule, hk]
    refine gives_values hs hn hrule ?_
    exact judges_gives.branchValues hself fun b hb => ih b hb (hs.mark rfl) hreading
  | assignment hn hkind hequals hright _ ih =>
    refine gives_values hs hn (by simp only [valuesRule, hkind, hequals, hright]; rfl) ?_
    exact ih (hs.mark rfl) hreading
  | sequence hn hkind hlast _ ih =>
    refine gives_values hs hn (by simp only [valuesRule, hkind, hlast]; rfl) ?_
    exact ih (hs.mark rfl) hreading
  | globalCall hn hkind hcal hmem hg he _ ih =>
    obtain ⟨hname, hfree, -, hglob⟩ := hreading _ _ hmem
    have hglob := Facts.definitions_eq_nil hglob
    refine gives_values hs hn (by simp only [valuesRule, hkind]; rfl) ?_
    exact gives_callValues_foreign (hs.mark rfl) hcal hname hfree hglob hg he (ih (hs.mark rfl) hreading)
  | member hn hkind hname hobj hobjectKind hholds hk hlen hdig he htexts _ ih =>
    refine gives_values hs hn (by simp only [valuesRule, hkind]; rfl) ?_
    refine gives_memberValues (hs.mark rfl) hreading hname hobj hobjectKind hholds ?_ hlen
      hdig he htexts (ih ((hs.mark rfl).mark rfl) hreading)
    simpa using hk
  | foreign hn hmem =>
    obtain ⟨hname, hfree, -, hglob⟩ := hreading _ _ hmem
    have hglob := Facts.definitions_eq_nil hglob
    have hkind := kind_of_isUnbound hfree
    refine gives_values hs hn (by simp only [valuesRule, hkind]; rfl) ?_
    exact gives_identifierValues_foreign hname hfree hglob
  | @passed _ depth n _ _ hn hkind hmem =>
    obtain ⟨b, argument, hb, hlook, hwrote, hown, -⟩ := hreading _ _ hmem
    have hopen := hs.mark (k := ⟨.values, n.ident, none⟩) rfl
    have hbind : (bindingValues b depth).Gives F _ _ :=
      gives_bindingValues_argument (f := fun _ => []) hopen hlook hwrote (by simp [hown])
    rw [hown] at hbind
    exact gives_named hs hn hkind hb hbind
  | blank f hn hkind hmem _ ih =>
    obtain ⟨b, argument, hb, hlook, hwrote, hown, hfall⟩ := hreading _ _ hmem
    subst hfall
    have hbind := gives_bindingValues_argument (F := F) (hs.mark rfl) hlook hwrote
      fun _ e he => ih e he (hs.mark rfl) hreading
    rw [hown] at hbind
    exact gives_named hs hn hkind hb hbind
  | supplied f hn hkind hmem _ ih =>
    obtain ⟨b, function, index, sites, hb, hlook, hsort, hinit, hkey, hrest, hfun,
      hidx, rfl, hsites, hwrote, rfl⟩ := hreading _ _ hmem
    refine gives_named hs hn hkind hb ?_
    refine gives_bindingValues_supplied (hs.mark rfl) hlook hsort hinit hkey ?_
      fun e he => ih e he (hs.mark rfl) hreading
    exact gives_paramValues (hs.mark rfl) hkey hrest hfun hidx hsites hwrote _
  | fixed f hn hkind hmem _ ih =>
    obtain ⟨b, hb, hlook, hsort, hviols, hkey, hinit, -⟩ := hreading _ _ hmem
    subst hinit
    refine gives_named hs hn hkind hb ?_
    exact gives_bindingValues_fixed (hs.mark rfl) hlook hsort hviols hkey
      fun e he => ih e he (hs.mark rfl) hreading

end ScriptAudit
