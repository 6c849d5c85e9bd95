import ScriptAudit.Proofs.Resolve.Telling

/-!
# The rules give the texts that the program settles

If the questions that a rule asks are answered right, it comes to the texts that the program
settles.
-/

namespace ScriptAudit

open Ask Engine Option

variable {F : Facts} {frames : List Frame} {s : Session} {n : Node} {depth : Nat} {texts : List String} {key : String}
  {targets : List (Node × Nat)}

lemma yields_askValues (h : F.HasTexts frames n texts) (depth : Nat) :
    (ask (.values n none depth)).Yields F frames texts := by
  rintro s rfl
  exact fun a t ht ha => ⟨ht, ha texts h⟩

lemma yields_askMember (h : F.HasMember frames n key texts) (depth : Nat) :
    (ask (.values n (some key) depth)).Yields F frames texts := by
  rintro s rfl
  exact fun a t ht ha => ⟨ht, ha texts h⟩

lemma yields_askObject {shape : Option Shape} (h : F.HasShape frames n shape) (depth : Nat) :
    (ask (.object n depth)).YieldsShape F frames shape := by
  rintro s rfl
  exact fun a t ht ha => ⟨ht, ha shape h⟩

lemma yields_askArray {elements : Option (List Node)} (h : F.HasElements frames n elements)
    (depth : Nat) : (ask (.array n depth)).Yields F frames elements := by
  rintro s rfl
  exact fun a t ht ha => ⟨ht, ha elements h⟩

lemma yields_askFunctions {fs : List Node} (h : F.HasFunctions frames n fs) (depth : Nat) :
    (ask (.functions n depth)).Yields F frames fs := by
  rintro s rfl
  exact fun a t ht ha => ⟨ht, ha fs h⟩

lemma tells_ask {α : Type} (q : Question α) : (ask q).Tells F s fun _ _ => True := fun _ _ ht _ => ⟨ht, trivial⟩

namespace Ask

lemma yields_objectProperty {shape : Option Shape} {value : Option Node} (h : F.HasShape frames n shape)
    (hkeyed : Shape.Keyed shape key value) (depth : Nat) : (objectProperty (some n) key depth).Yields F frames value :=
  fun s hs => .bind (yields_askObject h depth s hs) fun _ _ _ hshows => tells_propertyOf? hshows hkeyed

lemma yields_callTargets (h : F.HasTargets frames n targets) (depth : Nat) :
    (callTargets n depth).Yields F frames targets := by
  unfold callTargets
  cases h with
  | direct hcal hreads hfs =>
    simp only [hcal, hreads]
    exact .bind (.bind (yields_askFunctions hfs depth) (yields_pure _)) (yields_pure _)
  | through hkind hcal hreads hrecv hfs =>
    simp only [hcal, hreads, hkind, hrecv]
    exact .bind (.bind (yields_askFunctions hfs depth) (yields_pure _)) (yields_pure _)

lemma yields_foldReturns {β : Type} {start : β} {step : β → Node → Engine β} {g : β → Node → Node → β}
    (htargets : F.HasTargets frames n targets) (h : ∀ t ∈ targets, frames.any (·.function == t.1) = false →
      ∀ acc, ∀ r ∈ Model.returnsOf t.1,
        (step acc r).Yields F (frames ++ [Frame.ofCall F.model t.1 n t.2]) (g acc t.1 r)) :
    (foldReturns n depth start step).Yields F frames (foldReturned frames g start targets) := by
  refine .bind (yields_callTargets htargets _) (yielding.foldlM fun acc t ht => ?_)
  obtain ⟨function, offset⟩ := t
  refine .bind (yields_isBound function) ?_
  by_cases hbound : frames.any (·.function == function) = true
  · simp only [hbound, if_true]
    exact yields_pure acc
  · simp only [hbound]
    refine yields_withCall (yielding.foldlM fun acc r hr => ?_)
    exact h _ ht (Bool.eq_false_iff.mpr hbound) acc r hr

end Ask

lemma Kind.eq_of_isBranching {k : Kind} (h : k.isBranching = true) :
    k = .conditionalExpression ∨ k = .logicalExpression := by
  cases k <;> simp [isBranching] at h ⊢

lemma Node.ownText?_eq_none (hlit : n.kind ≠ .literal) (htemplate : n.kind ≠ .templateLiteral) :
    n.ownText? = none := by
  simp [Node.ownText?, Node.literalText?, plainTemplate?, hlit, htemplate]

lemma Facts.HasTexts.eq_of_ownText? (h : F.HasTexts frames n texts) {text : String}
    (hown : n.ownText? = some text) : texts = [text] := by
  have hkind {k : Kind} (hk : n.kind = k) (hlit : k ≠ .literal) (htemplate : k ≠ .templateLiteral) :
      texts = [text] := by
    rw [Node.ownText?_eq_none (hk ▸ hlit) (hk ▸ htemplate)] at hown
    cases hown
  cases h with
  | own htext =>
    rw [htext] at hown
    cases hown
    rfl
  | silent hnone | given hnone | template _ _ hnone =>
    rw [hnone] at hown
    cases hown
  | branches _ hk =>
    obtain hk | hk := Kind.eq_of_isBranching hk
    iterate 2 exact hkind hk (by decide) (by decide)
  | concat _ hk | assignment _ hk | sequence _ hk | undefined hk | declared hk | named _ hk | picked hk
  | passed _ hk | global _ hk | member hk | length hk | globalMember _ hk | computed _ hk | element _ hk
  | returned hk | silentCall hk | globalCall hk | method _ hk | appended _ hk | joined _ hk
  | unjoined hk => exact hkind hk (by decide) (by decide)

lemma yields_bound {b : Binding} {found : Option (Nat × Passed)}
    (h : Frame.bound? frames b = found) : (boundArgument? b).Yields F frames found := h ▸ yields_boundArgument? b

lemma yields_identifierValues {b : Binding} (hb : F.model.binding? n = some b)
    (h : (bindingValues b depth).Yields F frames texts) : (identifierValues n depth).Yields F frames texts :=
  yielding.identifierValues hb h

lemma yields_globalMemberValues_nil
    (h : ∀ g, F.globalMember? n = some g → ∀ e ∈ F.definitions g, F.HasTexts frames e []) :
    (globalMemberValues n depth).Yields F frames [] :=
  yielding.globalMemberValues_nil fun g hg e he => yields_askValues (h g hg e he) _

lemma Facts.HasReturned.yields_returnedValues (h : F.HasReturned frames n texts) (depth : Nat) :
    (returnedValues n depth).Yields F frames texts := by
  obtain ⟨f, htargets, hparts⟩ := h
  refine yields_foldReturns htargets fun t ht hfree found r hr => ?_
  exact .bind (yields_askValues (hparts t ht hfree r hr) _) (yielding.union _)

lemma yields_askPassed {passed : Passed} (hwhole : passed.key = none → F.HasTexts frames passed.argument texts)
    (hpart : ∀ key, passed.key = some key → F.HasMember frames passed.argument key texts) (depth : Nat) :
    (ask (.values passed.argument passed.key depth)).Yields F frames texts := by
  cases hkey : passed.key with
  | none => exact yields_askValues (hwhole hkey) depth
  | some key => exact yields_askMember (hpart key hkey) depth

lemma Facts.HasTexts.yields_rule (h : F.HasTexts frames n texts) (hown : n.ownText? = none) (depth : Nat) :
    ((valuesRule n depth).getD (pure [])).Yields F frames texts := by
  cases h with try simp only [valuesRule, ‹n.kind = _›, getD_some]
  | own htext =>
    rw [hown] at htext
    cases htext
  | silent _ hnone =>
    rw [hnone]
    exact yields_pure []
  | given _ hgiven =>
    rw [hgiven]
    exact yields_pure texts
  | template f hkind _ hparts => exact yielding.templateValues fun e he => yields_askValues (hparts e he) _
  | concat f hkind hplus hparts =>
    simp only [hplus]
    exact yielding.concatenated fun e he => yields_askValues (hparts e he) _
  | branches f hkind hself hparts =>
    obtain hkind | hkind := Kind.eq_of_isBranching hkind
    all_goals
      simp only [valuesRule, hkind, getD_some]
      exact yielding.branchValues hself fun e he => yields_askValues (hparts e he) _
  | assignment f hkind hequals hright =>
    simp only [hequals]
    exact yielding.values fun e he => yields_askValues (hright e he) _
  | sequence f hkind hlast => exact yielding.values fun e he => yields_askValues (hlast e he) _
  | undefined hkind hundef =>
    refine .bind yielding.model ?_
    simp only [hundef, if_true]
    exact yields_pure []
  | declared hkind hb hbound hsort =>
    exact yields_identifierValues hb (yielding.bindingValues_declared (yields_bound hbound) hsort)
  | named f hkind hb hbound hsort hkey hparts =>
    refine yields_identifierValues hb (yielding.bindingValues_named (yields_bound hbound) hsort hkey ?_)
    exact fun e he => yields_askValues (hparts e he) _
  | picked hkind hb hbound hsort hviols hinit hsrc hkey hmember =>
    refine yields_identifierValues hb ?_
    exact yielding.bindingValues_picked (yields_bound hbound) hsort hviols
      (fun e he => yields_askValues (hinit e he) _) hsrc hkey (yields_askMember hmember _)
  | passed f hkind hb hbound hwhole hpart hfall =>
    refine yields_identifierValues hb (yielding.bindingValues_passed (yields_bound hbound) ?_ ?_)
    · exact yields_underOuter (yields_askPassed hwhole hpart _)
    · exact fun hnil e he => yields_askValues (hfall hnil e he) _
  | global f hkind hundef hb hname hparts =>
    refine yielding.identifierValues_global hundef hb hname ?_
    exact fun e he => yields_askValues (hparts e he) _
  | member hkind hname hglo hlen hobj hmember =>
    exact yielding.memberValues hname (yields_globalMemberValues_nil hglo) hlen hobj
      (yields_askMember hmember _)
  | length hkind hname hglo =>
    simp only [memberValues, hname]
    exact .bind (yields_globalMemberValues_nil hglo) (yields_pure [])
  | @globalMember _ _ _ g f hkind hname hglo hparts hne =>
    simp only [memberValues, hname]
    refine .bind (yielding.globalMemberValues hglo fun e he => yields_askValues (hparts e he) _) ?_
    simp only [List.isEmpty_eq_false_iff.mpr hne]
    exact yields_pure _
  | computed f hkind hname hobj hkey hnames hne hparts =>
    simp only [memberValues, computedValues, hname, hobj, hkey]
    refine .bind (yields_askValues hnames _) ?_
    simp only [List.isEmpty_eq_false_iff.mpr hne]
    exact .bind (yielding.mapM fun name hmem => yields_askMember (hparts name hmem) _) (yielding.union _)
  | @element _ _ _ elements f hkind hname hobj hkey hshape helems hparts =>
    simp only [memberValues, computedValues, hname, hobj]
    have hkeys : (Ask.values (n.child? .property) (depth + 1)).Yields F frames [] := by
      cases hprop : n.child? .property with
      | none => exact yields_pure []
      | some e => exact yields_askValues (hkey e hprop) _
    refine .bind hkeys (.bind (yields_askObject hshape _).yields ?_)
    refine .bind (yields_pure false) (.bind (yields_askArray helems _) ?_)
    cases elements with
    | none => exact yields_pure []
    | some es => exact yielding.anyOf fun e he => yields_askValues (hparts es rfl e he) _
  | returned hkind hret hne =>
    refine .bind (hret.yields_returnedValues depth) ?_
    simp only [List.isEmpty_eq_false_iff.mpr hne]
    exact yields_pure _
  | silentCall hkind hret hsilent =>
    exact yielding.callValues_silent (hret.yields_returnedValues depth) hsilent
  | globalCall hkind hret hcal hfree hname hg he htexts =>
    exact yielding.callValues_global hcal (hret.yields_returnedValues depth) hfree hname hg he
      (yields_askValues htexts _)
  | method f hkind hret hcal hname hg hrecv =>
    refine yielding.callValues_method hcal (hret.yields_returnedValues depth) hname ?_
    exact yielding.methodCallValues_effect hg fun e he => yields_askValues (hrecv e he) _
  | appended f hkind hret hcal hname hobj hrecv hparts =>
    refine yielding.callValues_method hcal (hret.yields_returnedValues depth) hname ?_
    rw [hobj]
    exact yielding.methodCallValues_concat hrecv fun e he => yields_askValues (hparts e he) _
  | joined f hkind hret hcal hname hobj helems hseparator hparts =>
    refine yielding.callValues_method hcal (hret.yields_returnedValues depth) hname ?_
    rw [hobj]
    exact yielding.methodCallValues_join (yields_askArray helems _) hseparator fun e he =>
      yields_askValues (hparts e he) _
  | unjoined hkind hret hcal hname hobj helems hnone =>
    refine yielding.callValues_method hcal (hret.yields_returnedValues depth) hname ?_
    rw [hobj]
    exact yielding.methodCallValues_join_nil (yields_askArray helems _) hnone

lemma yields_unbound {object : Node} (h : F.Unbound frames object) :
    (boundOf? (F.model.rootBinding? object)).Yields F frames none := by
  cases hb : F.model.rootBinding? object with
  | none => exact yields_pure none
  | some b => exact yields_bound (h b hb)

lemma Facts.HasTaken.yields_takenFrom {passed : Passed} {value : Option Node} (h : F.HasTaken frames passed value)
    (depth : Nat) : (takenFrom passed.argument passed.key depth).Yields F frames value := by
  cases h with
  | whole => exact yields_pure _
  | part hshape hkeyed => exact yields_objectProperty hshape hkeyed depth

lemma Ask.yields_property {found : Option Node} {f : Node → List String}
    (h : ∀ e, found = some e → F.HasMember frames e key (f e)) (depth : Nat) :
    (property found key depth).Yields F frames ((found.map f).getD []) := by
  cases found with
  | none => exact yields_pure []
  | some e => exact yields_askMember (h e rfl) depth

lemma Facts.HasMember.yields_rule {object : Node} (h : F.HasMember frames object key texts) (depth : Nat) :
    (propertyValues object key depth).Yields F frames texts := by
  cases h with
  | element hthis hfree hdig helems hi he htexts =>
    have helem : (elementAt? object key depth).Yields F frames _ :=
      yielding.elementAt? hdig (yields_askArray helems _) hi
    rw [he] at helem
    unfold propertyValues
    rw [if_neg (by simpa using hthis)]
    exact .bind yielding.model (.bind (yields_unbound hfree) (.bind helem (yields_askValues htexts _)))
  | property f hthis hfree helems hbeyond hshape hkeyed hval hassigned horig =>
    have hdefined : (definedPropertyValues object key depth).Yields F frames _ :=
      yielding.definedPropertyValues (yields_objectProperty hshape hkeyed _)
        (fun e he => yields_askValues (hval e he) _) fun hnil e he => yields_askValues (hassigned hnil e he) _
    have helem : (elementAt? object key depth).Yields F frames none :=
      yielding.elementAt?_none (fun h => yields_askArray (helems h) _) hbeyond
    exact yielding.propertyValues hthis (yields_unbound hfree) helem hdefined horig
  | passed f hb hbound htaken hmember =>
    have hthis : (object.kind == .thisExpression) = false := by
      unfold Model.rootBinding? at hb
      split at hb
      next hkind => simp [eq_of_beq hkind]
      · cases hb
    unfold propertyValues
    simp only [hthis]
    refine .bind yielding.model ?_
    rw [hb]
    refine .bind (yields_bound hbound) (yields_underOuter ?_)
    cases htaken with
    | whole => exact yields_askMember (hmember _ rfl) _
    | part hshape hkeyed =>
      exact .bind (yields_objectProperty hshape hkeyed _) (yields_property hmember _)

end ScriptAudit
