import ScriptAudit.Proofs.Resolve.SettlingObjects

/-!
# String expressions

A string expression is made of literals, templates, `+`, the branching operators and names of
variables that are declared with one and never written to.
-/

namespace ScriptAudit

open List Node Facts

variable {ks : List Node} {m : Model} {js : List Node}

/-- A string expression. -/
inductive StringExpr where
  | literal (text : String)
  | gap (text : String) (e rest : StringExpr)
  | plus (left right : StringExpr)
  | choice (left right : StringExpr)
  | last (right : StringExpr)
  | named (initial : StringExpr)

namespace StringExpr

def value (cap : Nat) : StringExpr → List String
  | literal text => [text]
  | gap text e rest => joinPair cap [text] (joinPair cap (e.value cap) (rest.value cap))
  | plus left right => joinPair cap (left.value cap) (right.value cap)
  | choice left right => cutTexts cap (left.value cap ++ right.value cap)
  | last right => cutTexts cap (right.value cap)
  | named initial => initial.value cap

def levels (inChoice : Bool) : StringExpr → Nat
  | literal _ => 0
  | gap _ e rest => max (e.levels false + 1) (rest.levels false)
  | plus left right => max 1 (max (left.levels false) (right.levels false))
  | choice left right => (if inChoice then 0 else 1) + max (left.levels true) (right.levels true)
  | last right => (if inChoice then 0 else 1) + right.levels true
  | named initial => initial.levels false + 1

def ofTemplate : List String → List StringExpr → StringExpr
  | text :: texts, e :: es => gap text e (ofTemplate texts es)
  | texts, _ => literal (String.join texts)

variable {cap : Nat} {e : StringExpr}

lemma length_value_le (hcap : 0 < cap) : (e.value cap).length ≤ cap := by
  induction e with
  | literal => exact hcap
  | gap | plus => rw [value, length_joinPair]; exact Nat.min_le_right _ _
  | choice | last => exact length_take_le _ _
  | named _ ih => exact ih

lemma value_ne_nil (hcap : 0 < cap) : e.value cap ≠ [] := by
  have hjoin {xs ys : List String} (hys : ys ≠ []) : joinPair cap xs ys ≠ [] := by
    have hlen := length_pos_iff.mpr hys
    apply ne_nil_of_length_pos
    rw [length_joinPair]
    omega
  induction e with
  | literal => exact cons_ne_nil _ _
  | gap text e rest _ ih => exact hjoin (hjoin ih)
  | plus left right _ ih => exact hjoin ih
  | choice left right ih _ => exact cutTexts_ne_nil hcap (append_ne_nil_of_left_ne_nil ih _)
  | last right ih => exact cutTexts_ne_nil hcap ih
  | named initial ih => exact ih

lemma levels_ofTemplate (texts : List String) (es : List StringExpr) :
    (ofTemplate texts es).levels true = (ofTemplate texts es).levels false := by
  cases texts <;> cases es <;> rfl

lemma lt_ofTemplate {texts : List String} {es : List StringExpr} (hlen : es.length < texts.length) (he : e ∈ es) :
    sizeOf e < sizeOf (ofTemplate texts es) ∧ e.levels false < (ofTemplate texts es).levels false := by
  induction texts generalizing es with
  | nil => cases hlen
  | cons text texts ih =>
    cases es with
    | nil => cases he
    | cons e' es =>
      rw [ofTemplate, gap.sizeOf_spec, levels]
      rcases mem_cons.mp he with rfl | he
      · omega
      · obtain ⟨hsize, hlev⟩ := ih (Nat.lt_of_succ_lt_succ hlen) he
        omega

end StringExpr

lemma StringExpr.value_ofTemplate {cap : Nat} (hcap : 0 < cap) (quasis : List Node) (es : List StringExpr)
    (hlen : es.length < quasis.length) : ∃ columns, templateTexts? quasis (es.map (value cap)) = some columns ∧
      columns ≠ [] ∧ (ofTemplate (quasis.map cookedText) es).value cap = joinTexts cap columns := by
  induction quasis generalizing es with
  | nil => cases hlen
  | cons q quasis ih =>
    cases es with
    | nil =>
      refine ⟨_, templateTexts?_nil (q :: quasis), by simp, ?_⟩
      rw [joinTexts_stretches hcap (by simp)]
      rfl
    | cons e es =>
      obtain ⟨columns, hcols, hsome, hval⟩ := ih es (Nat.lt_of_succ_lt_succ hlen)
      have hne : ∀ c ∈ columns, c ≠ [] := by simpa using any_isEmpty_texts hcols
      have he : e.value cap ≠ [] := e.value_ne_nil hcap
      refine ⟨[q.cookedText] :: e.value cap :: columns, ?_, cons_ne_nil _ _, ?_⟩
      · rw [map_cons, templateTexts?, if_neg (by simpa using he), hcols]
        rfl
      · rw [joinTexts_cons (cons_ne_nil _ _) hcap (forall_mem_cons.mpr ⟨he, hne⟩) (cons_ne_nil _ _),
          joinTexts_cons he (length_value_le hcap) hne hsome, ← hval]
        rfl

namespace Node

variable {n l r : Node}

lemma concatTerms_eq (n : Node) : n.concatTerms =
    if n.isConcat then concatTermsAt .left n.links ++ concatTermsAt .right n.links else [n] := by
  cases n with
  | mk head ls => rw [concatTerms]; rfl

lemma branches_eq (n : Node) : n.branches =
    if n.kind == .conditionalExpression then branchesAt .consequent n.links ++ branchesAt .alternate n.links
    else if n.kind == .logicalExpression && (n.operator == "||" || n.operator == "??") then
      branchesAt .left n.links ++ branchesAt .right n.links
    else if n.kind == .logicalExpression && n.operator == "&&" then branchesAt .right n.links else [n] := by
  cases n with
  | mk head ls => rw [branches]; rfl

lemma concatTerms_of_isConcat (h : n.isConcat = true) (hl : n.child? .left = some l)
    (hr : n.child? .right = some r) : n.concatTerms = l.concatTerms ++ r.concatTerms := by
  have part {f : Field} {k : Node} (hk : n.child? f = some k) : concatTermsAt f n.links = k.concatTerms :=
    eq_of_child? hk (fun _ _ => rfl) fun _ _ _ => rfl
  rw [concatTerms_eq, if_pos h, part hl, part hr]

lemma concatTerms_of_not_isConcat (h : n.isConcat = false) : n.concatTerms = [n] := by
  rw [concatTerms_eq, h]
  rfl

lemma branchesAt_of_child? {f : Field} (h : n.child? f = some l) : branchesAt f n.links = l.branches :=
  eq_of_child? h (fun _ _ => rfl) fun _ _ _ => rfl

lemma branches_of_conditional (h : n.kind = .conditionalExpression) (hl : n.child? .consequent = some l)
    (hr : n.child? .alternate = some r) : n.branches = l.branches ++ r.branches := by
  simp [branches_eq n, h, branchesAt_of_child? hl, branchesAt_of_child? hr]

lemma branches_of_either (h : n.kind = .logicalExpression) (hoperator : n.operator = "||" ∨ n.operator = "??")
    (hl : n.child? .left = some l) (hr : n.child? .right = some r) : n.branches = l.branches ++ r.branches := by
  simp [branches_eq n, h, hoperator, branchesAt_of_child? hl, branchesAt_of_child? hr]

lemma branches_of_both (h : n.kind = .logicalExpression) (hoperator : n.operator = "&&")
    (hr : n.child? .right = some r) : n.branches = r.branches := by
  simp [branches_eq n, h, hoperator, branchesAt_of_child? hr]

lemma branches_of_not_isBranching (h : n.kind.isBranching = false) : n.branches = [n] := by
  have hconditional : n.kind ≠ .conditionalExpression := by rintro hk; simp [hk, Kind.isBranching] at h
  have hlogical : n.kind ≠ .logicalExpression := by rintro hk; simp [hk, Kind.isBranching] at h
  simp [branches_eq n, hconditional, hlogical]

lemma kind_of_literalText? {text : String} (h : n.literalText? = some text) : n.kind = .literal := by
  by_contra hk
  simp [literalText?, hk] at h

end Node

/-- `m.Expresses n e` says that the node `n` of a program is the string expression `e`. -/
inductive Model.Expresses (m : Model) : Node → StringExpr → Prop
  | literal {n text} : n.literalText? = some text → Expresses m n (.literal text)
  | template {n} (f : Node → StringExpr) : n.kind = .templateLiteral →
      (n.list .expressions).length < (n.list .quasis).length → (∀ k ∈ n.list .expressions, Expresses m k (f k)) →
      Expresses m n (.ofTemplate ((n.list .quasis).map cookedText) ((n.list .expressions).map f))
  | plus {n l r a b} : n.kind = .binaryExpression → n.operator = "+" → n.child? .left = some l →
      n.child? .right = some r → Expresses m l a → Expresses m r b → Expresses m n (.plus a b)
  | conditional {n l r a b} : n.kind = .conditionalExpression → n.child? .consequent = some l →
      n.child? .alternate = some r → Expresses m l a → Expresses m r b → Expresses m n (.choice a b)
  | either {n l r a b} : n.kind = .logicalExpression → n.operator = "||" ∨ n.operator = "??" →
      n.child? .left = some l → n.child? .right = some r → Expresses m l a → Expresses m r b →
      Expresses m n (.choice a b)
  | both {n r b} : n.kind = .logicalExpression → n.operator = "&&" → n.child? .right = some r → Expresses m r b →
      Expresses m n (.last b)
  | named {n init b e} : n.kind = .identifier → m.binding? n = some b → b.sort.isVariable = true → b.violations = [] →
      b.initial = some init → Expresses m init e → Expresses m n (.named e)

namespace Model.Expresses

variable {n : Node} {e e' : StringExpr}

lemma unique (h : m.Expresses n e) (h' : m.Expresses n e') : e' = e := by
  induction h generalizing e' with
  | literal htext =>
    have hk := kind_of_literalText? htext
    cases h' with
    | literal htext' => rw [htext] at htext'; cases htext'; rfl
    | _ => simp_all only [reduceCtorEq]
  | template f hk _ _ ih =>
    cases h' with
    | template f' _ _ hes' =>
      congr 1
      exact map_congr_left fun k hk => ih k hk (hes' k hk)
    | _ => simp_all [literalText?]
  | plus hk _ hl hr _ _ ihl ihr =>
    cases h' with
    | plus _ _ hl' hr' ha' hb' =>
      cases hl.symm.trans hl'
      cases hr.symm.trans hr'
      rw [ihl ha', ihr hb']
    | _ => simp_all [literalText?]
  | conditional hk hl hr _ _ ihl ihr =>
    cases h' with
    | conditional _ hl' hr' ha' hb' =>
      cases hl.symm.trans hl'
      cases hr.symm.trans hr'
      rw [ihl ha', ihr hb']
    | _ => simp_all [literalText?]
  | either hk hop hl hr _ _ ihl ihr =>
    cases h' with
    | either _ _ hl' hr' ha' hb' =>
      cases hl.symm.trans hl'
      cases hr.symm.trans hr'
      rw [ihl ha', ihr hb']
    | _ => simp_all [literalText?]
  | both hk hop hr _ ih =>
    cases h' with
    | both _ _ hr' hb' =>
      cases hr.symm.trans hr'
      rw [ih hb']
    | _ => simp_all [literalText?]
  | named hk hb _ _ hinit _ ih =>
    cases h' with
    | named _ hb' _ _ hinit' he' =>
      cases hb.symm.trans hb'
      cases hinit.symm.trans hinit'
      rw [ih he']
    | _ => simp_all [literalText?]

end Model.Expresses

open Classical in
noncomputable def Facts.textsOf (F : Facts) (n : Node) : List String :=
  if h : ∃ e, F.model.Expresses n e then h.choose.value F.limits.maxValues else []

variable {F : Facts} {n : Node} {e : StringExpr}

lemma Facts.textsOf_eq (h : F.model.Expresses n e) : F.textsOf n = e.value F.limits.maxValues := by
  have hsome : ∃ e, F.model.Expresses n e := ⟨e, h⟩
  rw [textsOf, dif_pos hsome, h.unique hsome.choose_spec]

def Model.Fits (m : Model) (size levels : Nat) (k : Node) : Prop :=
  ∃ e, m.Expresses k e ∧ sizeOf e ≤ size ∧ e.levels false ≤ levels

lemma Model.Fits.mono {size levels size' levels' : Nat} (h : m.Fits size levels n) (hsize : size ≤ size')
    (hlev : levels ≤ levels') : m.Fits size' levels' n := by
  obtain ⟨e, he, hs, hl⟩ := h
  exact ⟨e, he, Nat.le_trans hs hsize, Nat.le_trans hl hlev⟩

lemma Model.fits_append {size levels size' levels' : Nat} (hks : ∀ k ∈ ks, m.Fits size levels k)
    (hjs : ∀ k ∈ js, m.Fits size' levels' k) : ∀ k ∈ ks ++ js, m.Fits (size + size') (max levels levels') k := by
  intro k hk
  rcases mem_append.mp hk with hk | hk
  · exact (hks k hk).mono (Nat.le_add_right _ _) (Nat.le_max_left _ _)
  · exact (hjs k hk).mono (Nat.le_add_left _ _) (Nat.le_max_right _ _)

/-- What `n` is put together from when it is resolved, if it is the expression `e`. -/
inductive Facts.Flattens (F : Facts) (n : Node) (e : StringExpr) : Prop
  | own {text} : n.ownText? = some text → e.value F.limits.maxValues = [text] → Flattens F n e
  | template {size levels} : n.kind = .templateLiteral → n.ownText? = none →
      (∀ k ∈ n.list .expressions, F.model.Fits size levels k) → size < sizeOf e → levels < e.levels false →
      (templateTexts? (n.list .quasis) ((n.list .expressions).map F.textsOf)).map (joinTexts F.limits.maxValues) =
        some (e.value F.limits.maxValues) → Flattens F n e
  | concat {size} : n.kind = .binaryExpression → n.operator = "+" →
      (∀ k ∈ n.concatTerms, F.model.Fits size (e.levels false) k) → size < sizeOf e → 0 < e.levels false →
      concatTexts F.limits.maxValues (n.concatTerms.map F.textsOf) = e.value F.limits.maxValues → Flattens F n e
  | branches {size levels} : n.kind.isBranching = true → (∀ k ∈ n.branches, F.model.Fits size levels k) →
      size < sizeOf e → levels < e.levels false →
      unite F.limits.maxValues (n.branches.map F.textsOf) = e.value F.limits.maxValues → Flattens F n e
  | named {b init size levels} : n.kind = .identifier → F.model.binding? n = some b → b.sort.isVariable = true →
      b.violations = [] → b.initial = some init → F.model.Fits size levels init → size < sizeOf e →
      levels < e.levels false → F.textsOf init = e.value F.limits.maxValues → Flattens F n e

namespace Model.Expresses

variable {l r : Node} {a b : StringExpr}

lemma fits (h : F.model.Expresses n e) : F.model.Fits (sizeOf e) (e.levels false) n :=
  ⟨e, h, Nat.le_refl _, Nat.le_refl _⟩

/-! ### Chains -/

/-- The nodes are the terms of the chain `e`. -/
structure Terms (F : Facts) (ks : List Node) (e : StringExpr) : Prop where
  fits : ∀ k ∈ ks, F.model.Fits (sizeOf e) (e.levels false) k
  ne_nil : ks ≠ []
  value : joinTexts F.limits.maxValues (ks.map F.textsOf) = e.value F.limits.maxValues

lemma Terms.single (hcap : 0 < F.limits.maxValues) (h : F.model.Expresses n e) : Terms F [n] e where
  fits := by simpa using h.fits
  ne_nil := cons_ne_nil _ _
  value := by
    rw [map_singleton, textsOf_eq h]
    exact joinTexts_singleton (e.length_value_le hcap)

lemma Terms.columns_ne_nil (hcap : 0 < F.limits.maxValues) (h : Terms F ks e) : ∀ c ∈ ks.map F.textsOf, c ≠ [] := by
  simp only [forall_mem_map]
  intro k hk
  obtain ⟨e', he', -⟩ := h.fits k hk
  rw [textsOf_eq he']
  exact e'.value_ne_nil hcap

lemma Terms.plus (hcap : 0 < F.limits.maxValues) (ha : Terms F ks a) (hb : Terms F js b) :
    Terms F (ks ++ js) (.plus a b) where
  fits k hk := (Model.fits_append ha.fits hb.fits k hk).mono (by simp) (Nat.le_max_right _ _)
  ne_nil := append_ne_nil_of_left_ne_nil ha.ne_nil js
  value := by
    rw [map_append, joinTexts_append (ha.columns_ne_nil hcap) (hb.columns_ne_nil hcap) (by simpa using ha.ne_nil)
      (by simpa using hb.ne_nil), ha.value, hb.value]
    rfl

lemma terms_concatTerms (hcap : 0 < F.limits.maxValues) (h : F.model.Expresses n e) : Terms F n.concatTerms e := by
  have hleaf {n : Node} {e : StringExpr} (h : F.model.Expresses n e) (hn : n.kind ≠ .binaryExpression) :
      Terms F n.concatTerms e := by
    rw [concatTerms_of_not_isConcat (by simp [isConcat, hn])]
    exact .single hcap h
  induction h with
  | literal htext => exact hleaf (.literal htext) (by simp [kind_of_literalText? htext])
  | template f hk hlen hes => exact hleaf (.template f hk hlen hes) (by simp [hk])
  | plus hk hoperator hl hr _ _ iha ihb =>
    rw [concatTerms_of_isConcat (by simp [isConcat, hk, hoperator]) hl hr]
    exact iha.plus hcap ihb
  | conditional hk hl hr ha hb => exact hleaf (.conditional hk hl hr ha hb) (by simp [hk])
  | either hk hoperator hl hr ha hb => exact hleaf (.either hk hoperator hl hr ha hb) (by simp [hk])
  | both hk hoperator hr hb => exact hleaf (.both hk hoperator hr hb) (by simp [hk])
  | named hk hb hsort hviols hinit he => exact hleaf (.named hk hb hsort hviols hinit he) (by simp [hk])

/-! ### Choices -/

/-- The nodes are the branches of the choice `e`, or `e` itself if that is none. -/
structure Branches (F : Facts) (ks : List Node) (e : StringExpr) : Prop where
  fits : ∀ k ∈ ks, F.model.Fits (sizeOf e) (e.levels true) k
  value : cutTexts F.limits.maxValues (ks.map F.textsOf).flatten =
    cutTexts F.limits.maxValues (e.value F.limits.maxValues)

lemma Branches.single (h : F.model.Expresses n e) (hlev : e.levels true = e.levels false) : Branches F [n] e where
  fits := by simpa [hlev] using h.fits
  value := by simp [textsOf_eq h]

lemma Branches.choice (ha : Branches F ks a) (hb : Branches F js b) : Branches F (ks ++ js) (.choice a b) where
  fits k hk := (Model.fits_append ha.fits hb.fits k hk).mono (by simp) (by simp [StringExpr.levels])
  value := by
    rw [map_append, flatten_append, ← cutTexts_append_cutTexts, ha.value, hb.value,
      cutTexts_append_cutTexts, StringExpr.value, cutTexts_cutTexts]

lemma Branches.last (hb : Branches F ks b) : Branches F ks (.last b) where
  fits k hk := (hb.fits k hk).mono (by simp) (by simp [StringExpr.levels])
  value := by rw [hb.value, StringExpr.value, cutTexts_cutTexts]

lemma branches_branches (h : F.model.Expresses n e) : Branches F n.branches e := by
  have hleaf {n : Node} {e : StringExpr} (h : F.model.Expresses n e) (hn : n.kind.isBranching = false)
      (hlev : e.levels true = e.levels false) : Branches F n.branches e := by
    rw [branches_of_not_isBranching hn]
    exact .single h hlev
  induction h with
  | literal htext => exact hleaf (.literal htext) (by rw [kind_of_literalText? htext]; rfl) rfl
  | template f hk hlen hes => exact hleaf (.template f hk hlen hes) (by rw [hk]; rfl) (StringExpr.levels_ofTemplate _ _)
  | plus hk hoperator hl hr ha hb => exact hleaf (.plus hk hoperator hl hr ha hb) (by rw [hk]; rfl) rfl
  | conditional hk hl hr _ _ iha ihb =>
    rw [branches_of_conditional hk hl hr]
    exact iha.choice ihb
  | either hk hoperator hl hr _ _ iha ihb =>
    rw [branches_of_either hk hoperator hl hr]
    exact iha.choice ihb
  | both hk hoperator hr _ ih =>
    rw [branches_of_both hk hoperator hr]
    exact ih.last
  | named hk hb hsort hviols hinit he =>
    exact hleaf (.named hk hb hsort hviols hinit he) (by rw [hk]; rfl) rfl

/-! ### All expressions -/

lemma flattens_template (hcap : 0 < F.limits.maxValues) {f : Node → StringExpr} (hk : n.kind = .templateLiteral)
    (hlen : (n.list .expressions).length < (n.list .quasis).length)
    (hes : ∀ k ∈ n.list .expressions, F.model.Expresses k (f k)) :
    F.Flattens n (.ofTemplate ((n.list .quasis).map cookedText) ((n.list .expressions).map f)) := by
  have hlit : n.literalText? = none := by simp [literalText?, hk]
  by_cases hgaps : n.list .expressions = []
  · have hown : n.ownText? = some (String.join ((n.list .quasis).map cookedText)) := by
      simp [ownText?, hlit, plainTemplate?, hk, hgaps]
    refine .own hown ?_
    rw [hgaps]
    cases n.list .quasis <;> rfl
  · have hown : n.ownText? = none := by simp [ownText?, hlit, plainTemplate?, hgaps]
    have htexts : (n.list .expressions).map F.textsOf =
        ((n.list .expressions).map f).map (StringExpr.value F.limits.maxValues) := by
      rw [map_map]
      exact map_congr_left fun k hk => textsOf_eq (hes k hk)
    obtain ⟨columns, hcols, -, hval⟩ := StringExpr.value_ofTemplate hcap (n.list .quasis)
      ((n.list .expressions).map f) (by simpa using hlen)
    have hless (k : Node) (hk : k ∈ n.list .expressions) :=
      StringExpr.lt_ofTemplate (by simpa using hlen : _ < ((n.list .quasis).map cookedText).length)
        (mem_map_of_mem (f := f) hk)
    obtain ⟨k, hsome⟩ := exists_mem_of_ne_nil _ hgaps
    refine .template hk hown (fun k hk => ⟨f k, hes k hk, Nat.le_sub_one_of_lt (hless k hk).1,
      Nat.le_sub_one_of_lt (hless k hk).2⟩) ?_ ?_ ?_
    · exact Nat.sub_one_lt_of_lt (hless k hsome).1
    · exact Nat.sub_one_lt_of_lt (hless k hsome).2
    · rw [htexts, hcols, hval]
      rfl

lemma flattens_plus (hcap : 0 < F.limits.maxValues) (hk : n.kind = .binaryExpression) (hoperator : n.operator = "+")
    (hl : n.child? .left = some l) (hr : n.child? .right = some r) (ha : F.model.Expresses l a)
    (hb : F.model.Expresses r b) : F.Flattens n (.plus a b) := by
  have hterms := (ha.terms_concatTerms hcap).plus hcap (hb.terms_concatTerms hcap)
  have hfits := Model.fits_append (ha.terms_concatTerms hcap).fits (hb.terms_concatTerms hcap).fits
  rw [← concatTerms_of_isConcat (by simp [isConcat, hk, hoperator]) hl hr] at hterms hfits
  have hcols := hterms.columns_ne_nil hcap
  refine .concat hk hoperator (fun k hk => (hfits k hk).mono (Nat.le_refl _) (Nat.le_max_right _ _)) (by simp)
    (Nat.lt_of_lt_of_le Nat.zero_lt_one (Nat.le_max_left _ _)) ?_
  rw [concatTexts, if_neg (by simpa using hcols)]
  exact hterms.value

lemma flattens_choice (hcap : 0 < F.limits.maxValues) (hk : n.kind.isBranching = true)
    (hn : n.branches = l.branches ++ r.branches) (ha : F.model.Expresses l a) (hb : F.model.Expresses r b) :
    F.Flattens n (.choice a b) := by
  have hbr := ha.branches_branches.choice hb.branches_branches
  have hfits := Model.fits_append ha.branches_branches.fits hb.branches_branches.fits
  rw [← hn] at hbr hfits
  refine .branches hk hfits (by simp) (by simp [StringExpr.levels]) ?_
  rw [unite_eq_cut hcap, hbr.value]
  exact cutTexts_cutTexts

lemma flattens (hcap : 0 < F.limits.maxValues) (h : F.model.Expresses n e) : F.Flattens n e := by
  cases h with
  | literal htext => exact .own (by simp [ownText?, htext]) rfl
  | template f hk hlen hes => exact flattens_template hcap hk hlen hes
  | plus hk hoperator hl hr ha hb => exact flattens_plus hcap hk hoperator hl hr ha hb
  | conditional hk hl hr ha hb =>
    exact flattens_choice hcap (by rw [hk]; rfl) (branches_of_conditional hk hl hr) ha hb
  | either hk hoperator hl hr ha hb =>
    exact flattens_choice hcap (by rw [hk]; rfl) (branches_of_either hk hoperator hl hr) ha hb
  | both hk hoperator hr hb =>
    have hbr := hb.branches_branches.last
    rw [← branches_of_both hk hoperator hr] at hbr
    have hfits := hb.branches_branches.fits
    rw [← branches_of_both hk hoperator hr] at hfits
    refine .branches (by rw [hk]; rfl) hfits (by simp) (by simp [StringExpr.levels]) ?_
    rw [unite_eq_cut hcap, hbr.value]
    exact cutTexts_cutTexts
  | named hk hb hsort hviols hinit he =>
    refine .named hk hb hsort hviols hinit he.fits (by simp) (Nat.lt_succ_self _) ?_
    rw [textsOf_eq he]
    rfl

end Model.Expresses

lemma Binding.textsWith_of_initial {b : Binding} {init : Node} (limits : Limits) (f : Node → List String)
    (hviols : b.violations = []) (hinit : b.initial = some init) : b.textsWith limits f = f init := by
  simp [Binding.textsWith, hviols, hinit]

section Settled

variable (hsound : F.Sound) (huniq : F.Unique) (hcap : 0 < F.limits.maxValues)

include huniq in
lemma Model.Expresses.branches_ne_self {size levels : Nat} (hn : F.Has n) (h : m.Expresses n e)
    (hfits : ∀ k ∈ n.branches, m.Fits size levels k) (hsize : size < sizeOf e) : n.branches.map ident ≠ [n.ident] := by
  intro hself
  obtain ⟨k, hk, hid⟩ := map_eq_singleton_iff.mp hself
  have hmem : k ∈ n.branches := hk ▸ mem_singleton_self k
  obtain rfl := huniq k n (hn.mem_branches hmem) hn hid
  obtain ⟨e', he', hsize', -⟩ := hfits k hmem
  rw [h.unique he'] at hsize'
  exact Nat.not_lt.mpr hsize' hsize

include huniq hcap in
/-- The names may stand for something else, as long as their texts are those of what they stand for
in the program. -/
lemma Model.Expresses.hasTexts_under {frames : List Frame}
    (hnamed : ∀ {n init : Node} {b : Binding} {e : StringExpr}, n.kind = .identifier → m.binding? n = some b →
      b.sort.isVariable = true → b.violations = [] → b.initial = some init → m.Expresses init e →
      (F.Has init → F.HasTexts frames init (e.value F.limits.maxValues)) →
      F.HasTexts frames n (e.value F.limits.maxValues))
    (hn : F.Has n) (h : m.Expresses n e) : F.HasTexts frames n (e.value F.limits.maxValues) := by
  -- by induction on the size, since the parts of a flattened expression are not its operands
  induction hsizeOf : sizeOf e using Nat.strongRecOn generalizing n e with
  | ind total ih =>
    subst hsizeOf
    have hpart {size levels : Nat} (hsize : size < sizeOf e) {k : Node} (hk : F.Has k) (hfits : m.Fits size levels k) :
        F.HasTexts frames k (textsOf { F with model := m } k) := by
      obtain ⟨e', he', hsize', -⟩ := hfits
      rw [textsOf_eq he']
      exact ih _ (Nat.lt_of_le_of_lt hsize' hsize) hk he' rfl
    cases h.flattens (F := { F with model := m }) hcap with dsimp only at *
    | own htext hval =>
      rw [hval]
      exact .own htext
    | template hk hown hfits hsize _ hval =>
      have htexts : F.HasTexts frames n _ := .template _ hk hown fun k hk => hpart hsize (hn.mem_list hk) (hfits k hk)
      rwa [hval] at htexts
    | concat hk hoperator hfits hsize _ hval =>
      rw [← hval]
      exact .concat _ hk hoperator fun k hk => hpart hsize (hn.mem_concatTerms hk) (hfits k hk)
    | branches hk hfits hsize _ hval =>
      rw [← hval]
      exact .branches _ hk (h.branches_ne_self huniq hn hfits hsize) fun k hk =>
        hpart hsize (hn.mem_branches hk) (hfits k hk)
    | named hk hb hsort hviols hinit hfits hsize _ hval =>
      obtain ⟨e', he', hsize', -⟩ := hfits
      rw [← hval, textsOf_eq he']
      exact hnamed hk hb hsort hviols hinit he' fun hhas => ih _ (Nat.lt_of_le_of_lt hsize' hsize) hhas he' rfl

lemma Facts.HasTexts.of_initial {frames : List Frame} {b : Binding} {init : Node} {texts : List String}
    (hk : n.kind = .identifier) (hb : F.model.binding? n = some b) (hbound : Frame.bound? frames b = none)
    (hsort : b.sort.isVariable = true) (hviols : b.violations = []) (hinit : b.initial = some init) (hne : texts ≠ [])
    (h : F.HasTexts frames init texts) : F.HasTexts frames n texts := by
  have hnamed : F.HasTexts frames n (b.textsWith F.limits fun _ => texts) := by
    refine .named _ hk hb hbound (BindingSort.isLocal_of_isVariable hsort) (fun _ hnil => ?_) ?_
    · simp [hinit, hne] at hnil
    · simpa [hinit, hviols] using h
  rwa [Binding.textsWith_of_initial _ _ hviols hinit] at hnamed

include hsound huniq hcap in
lemma Model.Expresses.hasTexts (hn : F.Has n) (h : F.model.Expresses n e) :
    F.HasTexts [] n (e.value F.limits.maxValues) := by
  refine h.hasTexts_under huniq hcap (fun {_ init b e} hk hb hsort hviols hinit _ hinitial => ?_) hn
  exact .of_initial hk hb rfl hsort hviols hinit (e.value_ne_nil hcap)
    (hinitial ((hsound.model.binding? hb).initial _ hinit))

end Settled

end ScriptAudit
