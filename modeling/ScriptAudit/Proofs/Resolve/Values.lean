import ScriptAudit.Proofs.Resolve.Callers

/-!
# Rules for texts keep to the program

Each rule asks about nodes of the program one level deeper; only the terms of a concatenation are
asked for at its own level, and none of them is one.
-/

namespace ScriptAudit

open Engine Facts List Question

variable {F : Facts} {least depth : Nat} {rule : Engine (List String)} {arguments : List Node}

lemma nonempty_of_mem_intersperse {sep : List String} (hsep : sep.isEmpty = false) :
    ∀ {columns : List (List String)}, (∀ c ∈ columns, c.isEmpty = false) →
      ∀ c ∈ columns.intersperse sep, c.isEmpty = false
  | [], _, c, hc => by simp at hc
  | [a], h, c, hc => h c (by simpa using hc)
  | a :: b :: rest, h, c, hc => by
    simp only [intersperse_cons_cons, mem_cons] at hc
    obtain rfl | rfl | hc := hc
    · exact h _ mem_cons_self
    · exact hsep
    · exact nonempty_of_mem_intersperse hsep (forall_mem_cons.mp h).2 c (by simpa using hc)

lemma Engine.meets_zip {columns : List (List String)} (h : ∀ c ∈ columns, c.isEmpty = false) :
    (Engine.zip columns).Meets F least F.Capped := by
  have hany : columns.any List.isEmpty = false := by simpa using h
  refine .bind meets_limits fun limits hlimits => ?_
  subst hlimits
  rw [zipColumns_eq hany]
  exact meets_pure fun _ => length_joinTexts ▸ Nat.min_le_right _ _

lemma Engine.meets_union (groups : List (List String)) : (Engine.union groups).Meets F least F.Capped :=
  .bind meets_limits fun _ hlimits => meets_pure (hlimits ▸ capped_unite groups)

lemma Engine.meets_visitProperties {α : Type} {Q : α → Prop} (ref : ShapeRef)
    {f : String → Node → Engine α} (h : ∀ key value, F.Has value → (f key value).Meets F least Q) :
    (visitProperties ref f).Meets F least fun as => ∀ a ∈ as, Q a := by
  refine .bind (meets_shapeAt ref) fun shape hshape => meets_mapM fun e he => ?_
  refine .bind (h e.1 e.2 (hshape.properties e he)) fun a ha => ?_
  exact .bind (meets_checkSize ref _) fun _ _ => meets_pure ha

namespace Ask

lemma meets_columns {nodes : List Node} (h : ∀ n ∈ nodes, F.Knows n ∧ (Question.values n none depth).After least) :
    (columns depth nodes).Meets F least fun cs => ∀ l, cs = some l → ∀ c ∈ l, c.isEmpty = false := by
  induction nodes with
  | nil => exact meets_pure (by simp)
  | cons n rest ih =>
    obtain ⟨⟨hn, hafter⟩, hrest⟩ := forall_mem_cons.mp h
    refine .bind (meets_ask hn hafter) fun values _ => meets_ite (fun _ => ?_) fun hvals => ?_
    · exact meets_pure (by simp)
    · refine .bind (ih hrest) fun cs hcs => meets_pure fun l hl => ?_
      obtain ⟨l', hl', rfl⟩ := Option.map_eq_some_iff.mp hl
      exact forall_mem_cons.mpr ⟨by simpa using hvals, hcs l' hl'⟩

lemma meets_concatenated {parts : List Node} (h : ∀ n ∈ parts, F.Knows n ∧ (Question.values n none depth).After least) :
    (concatenated parts depth).Meets F least F.Capped := by
  refine .bind (meets_columns h) fun cs hcs => ?_
  split
  · exact meets_zip (hcs _ rfl)
  · exact meets_nil

lemma meets_anyOf {nodes : List Node} (h : ∀ n ∈ nodes, F.Knows n)
    (hdepth : least < 2 * depth + 1) : (anyOf nodes depth).Meets F least F.Capped :=
  .bind (meets_mapM fun n hn => meets_askValues (h n hn) hdepth) fun groups _ => meets_union groups

lemma meets_templateColumns {quasis expressions : List Node} (h : F.HasAll expressions)
    (hdepth : least < 2 * depth + 1) :
    (templateColumns depth quasis expressions).Meets F least fun cs =>
      ∀ l, cs = some l → ∀ c ∈ l, c.isEmpty = false := by
  fun_induction templateColumns depth quasis expressions with
  | case1 => exact meets_pure (by simp)
  | case2 q qs ih =>
    refine .bind (ih (by simp)) fun cs hcs => meets_pure fun l hl => ?_
    obtain ⟨l', hl', rfl⟩ := Option.map_eq_some_iff.mp hl
    exact forall_mem_cons.mpr ⟨rfl, hcs l' hl'⟩
  | case3 q qs e es ih =>
    obtain ⟨he, hes⟩ := forall_mem_cons.mp h
    refine .bind (meets_askValues he.knows hdepth) fun values _ => ?_
    refine meets_ite (fun _ => meets_pure (by simp)) fun hvals => ?_
    refine .bind (ih hes) fun cs hcs => meets_pure fun l hl => ?_
    obtain ⟨l', hl', rfl⟩ := Option.map_eq_some_iff.mp hl
    exact forall_mem_cons.mpr ⟨rfl, forall_mem_cons.mpr ⟨by simpa using hvals, hcs l' hl'⟩⟩

section Deeper

variable {n object : Node} {receiver : Option Node}

lemma meets_templateValues (hn : F.Has n) (hdepth : least ≤ 2 * depth + 2) :
    (templateValues n depth).Meets F least F.Capped := by
  refine .bind (meets_templateColumns (fun e he => hn.mem_list he) (by omega)) fun cs hcs => ?_
  split
  · exact meets_zip (hcs _ rfl)
  · exact meets_pure (capped_singleton _)

lemma meets_branchValues (hn : F.Has n) (hdepth : least ≤ 2 * depth + 2) :
    (branchValues n depth).Meets F least F.Capped := by
  have hbr : ∀ b ∈ n.branches, F.Knows b := fun b hb => Facts.Has.knows (Node.Below.mem_branches hn hb)
  unfold branchValues
  split
  next b hb =>
    rw [hb] at hbr
    exact meets_ite (fun _ => meets_nil) fun _ => meets_anyOf hbr (by omega)
  · exact meets_anyOf hbr (by omega)

lemma meets_globalValues (hF : F.Sound) (hdepth : least ≤ 2 * depth + 2) (name : String) :
    (globalValues name depth).Meets F least F.Capped := by
  refine .bind meets_globals fun globals hglob => ?_
  split
  next g =>
    refine meets_anyOf (fun n hn => ?_) (by omega)
    obtain ⟨e, he, rfl⟩ := mem_map.mp hn
    exact Facts.Has.knows ((hF.globals g hglob.symm).mem_lookup he)
  · exact meets_nil

variable {b : Binding}

lemma meets_passedValues (hdepth : least ≤ 2 * depth + 2) (hb : F.Declares b) (index : Nat) {passed : Passed}
    (hpass : F.Has passed.argument) : (passedValues b index passed depth).Meets F least F.Capped := by
  refine .bind (meets_underOuter (meets_ask ?_ (after_values (by omega) passed.key)))
    fun values hvals => meets_ite (fun _ => ?_) fun _ => meets_pure hvals
  · cases passed.key with
    | none => exact hpass.knows
    | some key => exact hpass
  · exact meets_values hb.fallback (by omega)

lemma meets_declaredValues (hdepth : least ≤ 2 * depth + 2) (hb : F.Declares b) :
    (declaredValues b depth).Meets F least F.Capped := by
  refine meets_ite (fun _ => meets_nil) fun _ => ?_
  refine .bind (meets_values hb.initial (by omega)) fun values hvals => ?_
  refine meets_ite (fun _ => meets_pure hvals) fun _ => ?_
  split
  · exact meets_property hb.source _ (by omega)
  · exact meets_nil

lemma has_writtenValue? {w : Node} (hw : F.Has w) : F.MaybeHas (writtenValue? w) := by
  unfold writtenValue?
  split
  · exact (hw.child? .right).ite
  · exact hw.child? .initial
  · exact maybeHas_none

lemma meets_rewrittenValues (hdepth : least ≤ 2 * depth + 2) (hb : F.Declares b) :
    (rewrittenValues b depth).Meets F least F.Capped := by
  refine .bind meets_limits fun _ _ => meets_ite (fun _ => meets_nil) fun _ => ?_
  refine meets_anyOf (forall_mem_append.mpr ⟨fun n hn => ?_, fun n hn => ?_⟩) (by omega)
  · exact (Facts.MaybeHas.mem_toList hb.initial hn).knows
  · obtain ⟨w, hw, hn⟩ := mem_filterMap.mp hn
    exact (has_writtenValue? (hb.violations w hw) n hn).knows

lemma meets_bindingValues (hF : F.Sound) (hdepth : least ≤ 2 * depth + 2) (hb : F.Declares b) :
    (bindingValues b depth).Meets F least F.Capped := by
  refine .bind (meets_bound b) fun bound hbound => ?_
  split
  next index passed => exact meets_passedValues hdepth hb index (hbound index passed rfl)
  · split
    iterate 3 exact meets_nil
    · refine .bind (meets_declaredValues hdepth hb) fun values hvals => ?_
      refine meets_ite (fun _ => meets_pure hvals) fun _ => meets_ite (fun _ => ?_) fun _ => ?_
      · refine .bind (meets_paramValues hF (by omega) hb none) fun supplied hsup => ?_
        split
        next d hd =>
          have hd : F.Has d := hb.fallback d hd
          exact .bind (meets_askValues hd.knows (by omega)) fun _ _ => meets_union _
        · exact meets_pure hsup
      · exact meets_rewrittenValues hdepth hb

lemma meets_identifierValues (hF : F.Sound) (hn : F.Has n) (hkind : n.kind = .identifier)
    (hdepth : least ≤ 2 * depth + 2) : (identifierValues n depth).Meets F least F.Capped := by
  refine .bind meets_model fun m hm => meets_ite (fun _ => meets_nil) fun _ => ?_
  subst hm
  split
  next b hb => exact meets_bindingValues hF hdepth (hF.model.binding? hb)
  · exact .bind (meets_nameOf hn hkind) fun name _ => meets_globalValues hF hdepth name

lemma meets_computedValues (hn : F.Has n) (hdepth : least ≤ 2 * depth + 2) :
    (computedValues n depth).Meets F least F.Capped := by
  have hobj := hn.child? .object
  unfold computedValues
  refine .bind (meets_values (hn.child? .property) (by omega)) fun keys _ => ?_
  refine meets_ite (fun _ => ?_) fun _ => ?_
  · exact .bind (meets_mapM fun key _ => meets_property hobj key (by omega)) fun groups _ => meets_union groups
  · refine .bind (meets_object hobj (by omega)) fun shape _ => ?_
    refine .bind (meets_hasProperties shape) fun known _ => ?_
    split
    · refine .bind (meets_visitProperties _ fun _ value hval =>
        meets_askValues hval.knows (by omega)) fun groups _ => ?_
      exact meets_union groups
    · refine .bind (meets_array hobj (by omega)) fun es hes => ?_
      split
      · exact meets_anyOf (hes _ rfl) (by omega)
      · exact meets_nil

lemma meets_globalMemberValues (hF : F.Sound) (n : Node) (hdepth : least ≤ 2 * depth + 2) :
    (globalMemberValues n depth).Meets F least F.Capped := by
  refine .bind meets_globals fun _ _ => ?_
  split
  · exact meets_globalValues hF hdepth _
  · exact meets_nil

lemma meets_memberValues (hF : F.Sound) (hn : F.Has n) (hdepth : least ≤ 2 * depth + 2) :
    (memberValues n depth).Meets F least F.Capped := by
  unfold memberValues
  split
  · exact meets_computedValues hn hdepth
  next name _ =>
    refine .bind (meets_globalMemberValues hF n hdepth) fun ofGlobal hofGlobal => ?_
    refine meets_ite (fun _ => meets_pure hofGlobal) fun _ => meets_ite (fun _ => meets_nil)
      fun _ => meets_property (hn.child? .object) name (by omega)

lemma meets_thisPropertyValues (hF : F.Sound) (this : Node) (property : String) (hdepth : least ≤ 2 * depth + 2) :
    (thisPropertyValues this property depth).Meets F least F.Capped := by
  refine .bind_model ?_
  split
  next f hf =>
    refine .bind (Owner.meets_ofFunction hF (hF.model.thisFunction? hf)) fun o ho => ?_
    exact meets_anyOf (fun n hn => (Owner.has_property hF ho hn).knows) (by omega)
  · refine .bind meets_facts fun _ _ => meets_ite (fun _ => ?_) fun _ => meets_nil
    exact meets_globalValues hF hdepth property

lemma meets_instancePropertyValues (hF : F.Sound) {new : Node} (hnew : F.Has new) (property : String)
    (hdepth : least ≤ 2 * depth + 2) : (instancePropertyValues new property depth).Meets F least F.Capped := by
  refine .bind_model ?_
  refine .bind (meets_callables (hnew.child? .callee) _) fun ctors hctors => ?_
  refine meets_foldlM capped_nil fun found hfound ctor hctor => ?_
  refine .bind (meets_isBound ctor) fun _ _ => meets_ite (fun _ => meets_pure hfound) fun _ => ?_
  refine .bind (Owner.meets_ofFunction hF (hctors ctor hctor)) fun o ho => ?_
  refine meets_withCall hnew (meets_foldlM hfound fun found _ value hval => ?_)
  exact .bind (meets_askValues (Owner.has_property hF ho hval).knows (by omega)) fun _ _ => meets_union _

lemma meets_passedPropertyValues (index : Nat) {passed : Passed} (hpass : F.Has passed.argument) (property : String)
    (hdepth : least ≤ 2 * depth + 2) : (passedPropertyValues index passed property depth).Meets F least F.Capped := by
  refine meets_underOuter ?_
  split
  · exact meets_askTexts hpass (by omega)
  next key _ =>
    exact .bind (meets_objectProperty hpass.some key (by omega)) fun object hobj =>
      meets_property hobj property (by omega)

lemma meets_elementAt? (hobj : F.Has object) (property : String) (hdepth : least ≤ 2 * depth + 2) :
    (elementAt? object property depth).Meets F least fun e => ∀ n, e = some n → F.Knows n := by
  refine meets_ite (fun _ => meets_pure (by simp)) fun hdig => ?_
  refine .bind (meets_array hobj.some (by omega)) fun es hes => ?_
  split
  · exact meets_pure (by simp)
  next elements =>
    split
    · exact meets_pure fun n hn => hes elements rfl n (mem_of_getElem? hn)
    next cause hcause => exact meets_fail ⟨by simpa using hdig, hcause⟩

lemma meets_definedPropertyValues (hF : F.Sound) (hobj : F.Has object) (property : String)
    (hdepth : least ≤ 2 * depth + 2) : (definedPropertyValues object property depth).Meets F least F.Capped := by
  refine .bind (meets_objectProperty hobj.some property (by omega)) fun value hval => ?_
  refine .bind (meets_values hval (by omega)) fun values hvals => ?_
  refine meets_ite (fun _ => meets_pure hvals) fun _ => .bind_model ?_
  exact meets_anyOf (fun n hn => Facts.Has.knows (hF.model.mem_assignedMembers hn)) (by omega)

lemma meets_originPropertyValues (hF : F.Sound) (hobj : F.Has object) {b : Option Binding}
    (hb : ∀ c, b = some c → F.Declares c) (property : String) (hdepth : least ≤ 2 * depth + 2) :
    (originPropertyValues object b property depth).Meets F least F.Capped := by
  unfold originPropertyValues
  split
  next b =>
    have hb := hb b rfl
    refine meets_ite (fun _ => meets_paramValues hF (by omega) hb _) fun _ => ?_
    split
    next value hval =>
      refine meets_ite (fun _ => ?_) fun _ => meets_nil
      exact meets_instancePropertyValues hF (hb.initial value hval) property hdepth
    · exact meets_nil
  · refine meets_ite (fun _ => ?_) fun _ => meets_nil
    exact meets_instancePropertyValues hF hobj property hdepth

lemma meets_propertyValues (hF : F.Sound) (hobj : F.Has object) (property : String)
    (hdepth : least ≤ 2 * depth + 2) : (propertyValues object property depth).Meets F least F.Capped := by
  refine meets_ite (fun _ => meets_thisPropertyValues hF object property hdepth) fun _ => ?_
  refine .bind_model ?_
  refine .bind (meets_boundOf? _) fun bound hbound => ?_
  split
  next index passed => exact meets_passedPropertyValues index (hbound index passed rfl) property hdepth
  · refine .bind (meets_elementAt? hobj property hdepth) fun element helem => ?_
    split
    · exact meets_askTexts (helem _ rfl) (by omega)
    · refine .bind (meets_definedPropertyValues hF hobj property hdepth) fun values hvals => ?_
      refine meets_ite (fun _ => meets_pure hvals) fun _ => ?_
      exact meets_originPropertyValues hF hobj (fun c hc => hF.model.rootBinding? hc) property hdepth

lemma meets_returnedValues {call : Node} (hcall : F.Has call) (hdepth : least ≤ 2 * depth + 2) :
    (returnedValues call depth).Meets F least F.Capped :=
  meets_foldReturns hcall capped_nil fun _ _ _ hn =>
    .bind (meets_askValues hn.knows (by omega)) fun _ _ => meets_union _

lemma meets_globalCallValues (name : String) (h : F.HasAll arguments) (hdepth : least ≤ 2 * depth + 2) :
    (globalCallValues name arguments depth).Meets F least F.Capped := by
  unfold globalCallValues
  split
  · exact meets_nil
  next first rest =>
    have hfirst : (Engine.ask (.values first none (depth + 1))).Meets F least F.Capped :=
      meets_askTexts (h first mem_cons_self).knows (by omega)
    refine meets_ite (fun _ => hfirst) fun _ => ?_
    split
    · exact .bind hfirst fun _ hvals => meets_pure (hvals.map _)
    · exact meets_nil

lemma meets_joinedValues (hrecv : F.MaybeHas receiver) (arguments : List Node)
    (hdepth : least ≤ 2 * depth + 2) : (joinedValues receiver arguments depth).Meets F least F.Capped := by
  refine .bind (meets_array hrecv (by omega)) fun es hes => ?_
  split
  · exact meets_nil
  next elements =>
    dsimp only
    split
    · exact meets_nil
    · refine .bind (meets_columns fun n hn =>
        ⟨hes elements rfl n hn, Question.after_values (by omega) none⟩) fun cs hcs => ?_
      split
      · exact meets_nil
      · exact meets_pure (capped_singleton _)
      · exact meets_zip (nonempty_of_mem_intersperse rfl (hcs _ rfl))

lemma meets_replacedValues (hrecv : F.MaybeHas receiver) (pattern replacement : Node) (every : Bool)
    (hdepth : least ≤ 2 * depth + 2) :
    (replacedValues receiver pattern replacement every depth).Meets F least F.Capped := by
  refine .bind (meets_values hrecv (by omega)) fun base hbase => ?_
  split
  · exact meets_pure (hbase.map _)
  · exact meets_pure hbase

lemma meets_methodCallValues (method : String) (hrecv : F.MaybeHas receiver) (h : F.HasAll arguments)
    (hdepth : least ≤ 2 * depth + 2) : (methodCallValues method receiver arguments depth).Meets F least F.Capped := by
  have hvals : (Ask.values receiver (depth + 1)).Meets F least F.Capped := meets_values hrecv (by omega)
  have hcut (bounds : List Int) : (do
      return (← Ask.values receiver (depth + 1)).map (cutOut method bounds)).Meets F least
        F.Capped :=
    .bind hvals fun _ htexts => meets_pure (htexts.map _)
  unfold methodCallValues
  split
  · exact .bind hvals fun _ htexts => meets_pure (htexts.map _)
  · split
    · exact meets_replacedValues hrecv _ _ false hdepth
    · exact meets_replacedValues hrecv _ _ true hdepth
    · split
      · exact hcut _
      · exact meets_nil
    · split
      · exact hcut _
      · exact meets_nil
    · split
      · exact hcut _
      · exact meets_nil
    · refine meets_ite (fun _ => meets_nil) fun _ => meets_concatenated fun n hn => ?_
      refine ⟨Facts.Has.knows ?_, Question.after_values (by omega) none⟩
      obtain hn | hn := mem_append.mp hn
      · exact hrecv.mem_toList hn
      · exact h n hn
    · exact meets_joinedValues hrecv _ hdepth
    · exact meets_nil

lemma meets_callValues {call : Node} (hcall : F.Has call) (hdepth : least ≤ 2 * depth + 2) :
    (callValues call depth).Meets F least F.Capped := by
  have hargs : F.HasAll (call.list .arguments) := fun a ha => hcall.mem_list ha
  refine .bind (meets_returnedValues hcall hdepth) fun values hvals => ?_
  refine meets_ite (fun _ => meets_pure hvals) fun _ => ?_
  split
  · exact meets_nil
  next callee hcal =>
    have hcal := hcall.child? .callee callee hcal
    refine .bind meets_model fun _ _ => meets_ite (fun _ => ?_) fun _ => ?_
    · exact meets_globalCallValues _ hargs hdepth
    · split
      · exact meets_methodCallValues _ (hcal.child? .object) hargs hdepth
      · exact meets_nil

end Deeper

lemma capped_negatedValues (n : Node) : F.Capped (negatedValues n) := by
  unfold negatedValues
  split
  · split
    · exact capped_singleton _
    · exact capped_nil
  · exact capped_nil

lemma kind_ne_literal {n : Node} (h : valuesRule n depth = some rule) : n.kind ≠ .literal := by
  intro hkind
  simp [valuesRule, hkind] at h

lemma meets_valuesRule (hF : F.Sound) {n : Node} (hn : F.Knows n) (h : valuesRule n depth = some rule) :
    rule.Meets F (Question.values n none depth).rank F.Capped := by
  have hn := hn.has (kind_ne_literal h)
  have hrank : (Question.values n none depth).rank ≤ 2 * depth + 2 := by
    simp only [rank]
    split <;> omega
  unfold valuesRule at h
  split at h <;> cases h
  · exact meets_templateValues hn hrank
  next hkind =>
    refine meets_ite (fun hplus => meets_concatenated fun t ht => ?_) fun _ => meets_nil
    refine ⟨Facts.Has.knows (Node.Below.mem_concatTerms hn ht), .inr ?_⟩
    have hconcat : n.isConcat = true := by simp_all [Node.isConcat]
    simp [rank, hconcat, Node.isConcat_of_mem_concatTerms ht]
  iterate 2 exact meets_branchValues hn hrank
  · exact meets_callValues hn hrank
  next hkind => exact meets_identifierValues hF hn hkind hrank
  · exact meets_memberValues hF hn hrank
  · exact meets_ite (fun _ => meets_values (hn.child? .right) (by omega)) fun _ => meets_nil
  · exact meets_values (hn.last? .expressions) (by omega)
  · exact meets_pure (capped_negatedValues n)

end Ask

end ScriptAudit
