import ScriptAudit.Proofs.Resolve.Spelled
import ScriptAudit.Request.Body

/-!
# What bodies and headers hold under a call

What a request body carries, and the headers, can be read off their expressions once it is known
what the names in them stand for.
-/

namespace ScriptAudit

open Engine List Option Param

def Param.valued? (p : Param) : Option (String × List String) :=
  if p.values.isEmpty then none else some (p.name, p.values)

def bodyValues (params : List Param) : List (String × List String) :=
  params.filterMap valued?

def entryValue? (f : Node → List String) (p : Node) : Option (String × List String) :=
  if p.kind.isSpreadProperty || p.kind != .property || p.computed then none
  else
    match p.propertyKey?, p.child? .value with
    | some name, some value => if value.kind == .literal || (f value).isEmpty then none else some (name, f value)
    | _, _ => none

def literalValues (f : Node → List String) (literal : Node) : List (String × List String) :=
  (literal.list .properties).filterMap (entryValue? f)

def SpellsEntries (limits : Limits) (reading : Reading) (f : Node → List String) (literal : Node) :
    Prop :=
  ∀ p ∈ literal.list .properties, ∀ value, p.child? .value = some value →
    value.kind ≠ .literal → Spells limits reading [] 0 value (f value)

/-- What a payload that is or names an object carries. -/
inductive Carries (limits : Limits) (reading : Reading) : Node → List (String × List String) → Prop
  | literal {n : Node} (f : Node → List String) : n.kind = .objectExpression →
      SpellsEntries limits reading f n → Carries limits reading n (literalValues f n)
  | named {n literal : Node} (f : Node → List String) : n.kind = .identifier →
      HoldsObject limits reading 0 n (some literal) → SpellsEntries limits reading f literal →
      Carries limits reading n (literalValues f literal)
  | nothing {n : Node} : HoldsObject limits reading 0 n none → Carries limits reading n []

/-- What a node serialises, read off its syntax. -/
inductive Serialises (reading : Reading) : Node → Option Node → Prop
  | json {n callee object : Node} : n.kind = .callExpression → n.child? .callee = some callee →
      callee.reads "stringify" = true → callee.child? .object = some object →
      (object, .foreign "JSON") ∈ reading → Serialises reading n (n.list .arguments).head?
  | query {n callee : Node} : n.kind = .newExpression → n.child? .callee = some callee →
      (callee, .foreign "URLSearchParams") ∈ reading → Serialises reading n (n.list .arguments).head?

/-- What a request body carries. -/
inductive Body (limits : Limits) (reading : Reading) : Node → List (String × List String) → Prop
  | empty {n : Node} : Serialises reading n none → Body limits reading n []
  | serialised {n payload : Node} {values} : Serialises reading n (some payload) →
      Carries limits reading payload values → Body limits reading n values
  | object {n : Node} {values} : n.kind = .objectExpression ∨ n.isWritten = true → Carries limits reading n values →
      Body limits reading n values
  | argument {n : Node} {text fallback} : n.kind = .identifier → (n, .argument text fallback) ∈ reading →
      Body limits reading n []
  | serialisedBefore {n initial payload : Node} {values} : n.kind = .identifier →
      (n, .fixed (some initial)) ∈ reading → Serialises reading initial (some payload) →
      Carries limits reading payload values → Body limits reading n values
  | named {n initial : Node} {values} : n.kind = .identifier → (n, .fixed (some initial)) ∈ reading →
      initial.kind ≠ .callExpression → initial.kind ≠ .newExpression → Carries limits reading n values →
      Body limits reading n values

variable {F : Facts} {s : Session} {frame : Frame} {reading : Reading} {n : Node} {f : Node → List String}

section

variable (hs : s.Through frame []) (hread : reading.HoldsIn F frame s.callSites)
include hs hread

lemma finds_propertyParam? {p : Node}
    (h : ∀ value, p.child? .value = some value → value.kind ≠ .literal → Spells F.limits reading [] 0 value (f value)) :
    (propertyParam? p).Finds F s fun o _ => o.bind valued? = entryValue? f p := by
  have hdescribed (name : String) (value : Node) :
      (describeParam name value).name = name ∧ (describeParam name value).values = [] := by
    unfold describeParam
    split <;> (try split) <;> exact ⟨rfl, rfl⟩
  unfold propertyParam? entryValue?
  by_cases hspread : p.kind.isSpreadProperty = true
  · simp only [hspread, if_true, Bool.true_or]
    refine finds_pure fun _ _ => ?_
    cases p.child? .argument with
    | none => rfl
    | some a =>
      rw [bind_some]
      split <;> rfl
  · by_cases hother : (p.kind != .property || p.computed) = true
    · simp only [hspread, hother, Bool.false_or, if_true]
      exact finds_pure fun _ _ => rfl
    · simp only [hspread, hother, Bool.false_or]
      cases hname : p.propertyKey? with
      | none => exact finds_pure fun _ _ => rfl
      | some name =>
        cases hval : p.child? .value with
        | none => exact finds_pure fun _ _ => rfl
        | some value =>
          obtain ⟨hdname, hdvalues⟩ := hdescribed name value
          by_cases hlit : value.kind = .literal
          · simp only [hlit, beq_self_eq_true, if_true, Bool.true_or]
            refine finds_pure fun _ _ => ?_
            simp [valued?, hdvalues]
          · have hkind : (value.kind == .literal) = false := by simpa using hlit
            simp only [hkind, Bool.false_or]
            refine Gives.bindFinds ((h value hval hlit).gives hs hread) ?_
            refine finds_pure fun _ _ => ?_
            simp [valued?, hdname]

lemma finds_objectParams {literal : Node} (h : SpellsEntries F.limits reading f literal) :
    (objectParams literal).Finds F s fun ps _ => bodyValues ps = literalValues f literal := by
  refine .bind (finds_mapM fun p hp => finds_propertyParam? hs hread (h p hp)) ?_
  intro found t _ hfound
  refine finds_pure fun _ _ => ?_
  calc bodyValues (found.filterMap id)
      = found.filterMap fun o => o.bind valued? := filterMap_filterMap
    _ = (found.map fun o => o.bind valued?).filterMap id := by rw [filterMap_map]; rfl
    _ = literalValues f literal := by
      rw [hfound, filterMap_map]
      rfl

lemma finds_shapeParams {literal : Node} {ref : ShapeRef} (hlit : literal.kind = .objectExpression)
    (href : s.shapes[ref]? = some literal.plainShape) (h : SpellsEntries F.limits reading f literal) :
    (shapeParams ref).Finds F s fun ps _ => bodyValues ps = literalValues f literal := by
  refine Gives.bindFinds (gives_shapeAt href) ?_
  have horig : (originParams literal.plainShape.origin).Finds F s fun ps _ =>
      bodyValues ps = literalValues f literal := by
    simp only [originParams, Node.plainShape, hlit, beq_self_eq_true, if_true]
    exact finds_objectParams hs hread h
  refine .bind horig fun described t ht hdescribed => ?_
  refine Gives.bindFinds (gives_shapeAt (ht.shapes ref _ href)) ?_
  refine finds_pure fun _ _ => ?_
  -- The properties that are only known by name have no values.
  have hothers (names : List String) :
      (names.map fun name => ({ name := name, required := true } : Param)).filterMap valued? = [] := by
    refine filterMap_eq_nil_iff.mpr fun p hp => ?_
    obtain ⟨name, -, rfl⟩ := mem_map.mp hp
    rfl
  rw [bodyValues, filterMap_append, hothers, append_nil]
  exact hdescribed

lemma finds_payloadParams {values : List (String × List String)} (h : Carries F.limits reading n values) :
    (payloadParams (some n)).Finds F s fun ps _ => bodyValues ps = values := by
  have htgt : (targetParams n).Finds F s fun ps _ => bodyValues ps = values := by
    unfold targetParams
    cases h with
    | literal f hkind hentries =>
      rw [if_pos (by simp [hkind])]
      exact finds_objectParams hs hread hentries
    | @named literal f hkind hholds hentries =>
      have hlit : literal.kind = .objectExpression := by
        cases hholds with
        | literal hplain => simp [Node.isPlainObject, hkind] at hplain
        | named _ _ hplain =>
          simp only [Node.isPlainObject, Bool.and_eq_true, beq_iff_eq] at hplain
          exact hplain.1
      rw [if_neg (by simp [hkind])]
      refine .bind (Ask.finds_askObject hholds hs hread) ?_
      rintro _ t ht ⟨ref, rfl, href⟩
      exact finds_shapeParams (hs.grow ht) (by rwa [ht.callSites]) hlit href hentries
    | nothing hholds =>
      have hkind : n.kind ≠ .objectExpression := by
        cases hholds with
        | written hwrote => rcases Node.kind_of_isWritten hwrote with hkind | hkind <;> simp [hkind]
        | argument hkind => simp [hkind]
      rw [if_neg (by simpa using hkind)]
      refine .bind (Ask.finds_askObject hholds hs hread) ?_
      rintro _ t - rfl
      exact finds_pure fun _ _ => rfl
  refine .bind htgt fun ps t _ hps => ?_
  refine finds_pure fun _ _ => ?_
  rw [← hps, bodyValues, filterMap_map]
  rfl

end

lemma serialised?_eq {payload : Option Node} (hread : reading.HoldsIn F frame s.callSites)
    (h : Serialises reading n payload) : serialised? F n = some payload := by
  cases h with
  | json hkind hcal hreads hobj hmem =>
    obtain ⟨-, -, hglo, -⟩ := hread _ _ hmem
    simp [serialised?, hkind, hcal, hreads, hobj, hglo]
  | query hkind hcal hmem =>
    obtain ⟨-, -, hglo, -⟩ := hread _ _ hmem
    simp [serialised?, hkind, hcal, hglo]

lemma serialised?_eq_none (hcall : n.kind ≠ .callExpression) (hnew : n.kind ≠ .newExpression) :
    serialised? F n = none := by
  unfold serialised?
  cases hkind : n.kind with
  | callExpression => exact absurd hkind hcall
  | newExpression => exact absurd hkind hnew
  | _ => rfl

lemma finds_bodyParams {values : List (String × List String)} (hs : s.Through frame [])
    (hread : reading.HoldsIn F frame s.callSites) (h : Body F.limits reading n values) :
    (bodyParams (some n)).Finds F s fun ps _ => bodyValues ps = values := by
  refine Gives.bindFinds gives_facts ?_
  cases h with
  | empty hser =>
    rw [serialised?_eq hread hser]
    exact finds_pure fun _ _ => rfl
  | serialised hser hcarries =>
    rw [serialised?_eq hread hser]
    exact finds_payloadParams hs hread hcarries
  | object hkind hcarries =>
    have hkinds : n.kind = .objectExpression ∨ n.kind = .literal ∨ n.kind = .templateLiteral :=
      hkind.imp_right Node.kind_of_isWritten
    have helse : (bodyElsewhere? n).Gives F s none := by
      unfold bodyElsewhere?
      rcases hkinds with hkind | hkind | hkind <;> simp only [hkind] <;> exact gives_pure none
    rw [serialised?_eq_none (by rcases hkinds with h | h | h <;> simp [h])
      (by rcases hkinds with h | h | h <;> simp [h])]
    refine Gives.bindFinds helse ?_
    exact finds_payloadParams hs hread hcarries
  | argument hkind hmem =>
    obtain ⟨b, argument, hb, hlook, hwrote, -⟩ := hread _ _ hmem
    have helse : (bodyElsewhere? n).Gives F s none := by
      simp only [bodyElsewhere?, hkind]
      refine .bind gives_model ?_
      rw [hb]
      refine .bind (gives_bound b) ?_
      rw [hs.boundArgument?, hlook]
      refine gives_underOuter (.bind (gives_pure (some argument)) (.bind gives_facts ?_))
      have hkinds := Node.kind_of_isWritten hwrote
      rw [bind_some, serialised?_eq_none (by rcases hkinds with h | h <;> simp [h])
        (by rcases hkinds with h | h <;> simp [h])]
      exact gives_pure none
    rw [serialised?_eq_none (by simp [hkind]) (by simp [hkind])]
    refine Gives.bindFinds helse ?_
    exact finds_payloadParams hs hread (.nothing (.argument hkind hmem))
  | serialisedBefore hkind hmem hser hcarries =>
    obtain ⟨b, hb, hlook, -, hviols, -, hinit, -⟩ := hread _ _ hmem
    have helse : (bodyElsewhere? n).Finds F s fun o _ =>
        ∃ ps, o = some ps ∧ bodyValues ps = values := by
      simp only [bodyElsewhere?, hkind]
      refine Gives.bindFinds gives_model ?_
      rw [hb]
      refine Gives.bindFinds (gives_bound b) ?_
      rw [hs.boundArgument?, hlook]
      simp only [Binding.isConstant, hviols, isEmpty_nil, if_true, hinit]
      refine Gives.bindFinds gives_facts ?_
      rw [bind_some, serialised?_eq hread hser]
      refine .bind (finds_payloadParams hs hread hcarries) fun ps _ _ hps => ?_
      exact finds_pure fun _ _ => ⟨ps, rfl, hps⟩
    rw [serialised?_eq_none (by simp [hkind]) (by simp [hkind])]
    refine .bind helse ?_
    rintro _ t - ⟨ps, rfl, hps⟩
    exact finds_pure fun _ _ => hps
  | named hkind hmem hcall hnew hcarries =>
    obtain ⟨b, hb, hlook, -, hviols, -, hinit, -⟩ := hread _ _ hmem
    have helse : (bodyElsewhere? n).Gives F s none := by
      simp only [bodyElsewhere?, hkind]
      refine .bind gives_model ?_
      rw [hb]
      refine .bind (gives_bound b) ?_
      rw [hs.boundArgument?, hlook]
      simp only [Binding.isConstant, hviols, isEmpty_nil, if_true, hinit]
      refine .bind gives_facts ?_
      rw [bind_some, serialised?_eq_none hcall hnew]
      exact gives_pure none
    rw [serialised?_eq_none (by simp [hkind]) (by simp [hkind])]
    refine Gives.bindFinds helse ?_
    exact finds_payloadParams hs hread hcarries

/-- The headers in what an expression holds. -/
inductive HeaderObject (limits : Limits) (reading : Reading) : Node → Table String String → Prop
  | object {n literal : Node} (f : Node → List String) : HoldsObject limits reading 0 n (some literal) →
      (∀ e ∈ literal.literalProperties.entries, Spells limits reading [] 0 e.2 (f e.2)) →
      HeaderObject limits reading n ⟨literal.literalProperties.entries.map fun e => (e.1,
        (f e.2).head?.getD unknownValue)⟩
  | nothing {n : Node} : HoldsObject limits reading 0 n none → HeaderObject limits reading n Table.empty

/-- The headers that an expression gives, by itself or as a `Headers` object. -/
inductive Heads (limits : Limits) (reading : Reading) : Node → Table String String → Prop
  | plain {n : Node} {headers} : n.kind ≠ .newExpression → HeaderObject limits reading n headers →
      Heads limits reading n headers
  | constructed {n callee source : Node} {headers} : n.kind = .newExpression → n.child? .callee = some callee →
      (callee, .foreign "Headers") ∈ reading → (n.list .arguments).head? = some source →
      HeaderObject limits reading source headers → Heads limits reading n headers

lemma gives_visitProperties {α : Type} {f : String → Node → Engine α} {g : String × Node → α}
    {ref : ShapeRef} {shape : Shape} (href : s.shapes[ref]? = some shape)
    (h : ∀ e ∈ shape.properties.entries, (f e.1 e.2).Gives F s (g e)) :
    (visitProperties ref f).Gives F s (shape.properties.entries.map g) := by
  refine .bind (gives_shapeAt href) ?_
  refine gives_mapM fun e he => ?_
  exact .bind (h e he) (.bind (gives_checkSize href) (gives_pure (g e)))

lemma gives_headersOf {headers : Table String String} (hs : s.Through frame [])
    (hread : reading.HoldsIn F frame s.callSites) (h : Heads F.limits reading n headers) :
    (headersOf (some n)).Gives F s headers := by
  obtain ⟨source, hsrc, hobj⟩ : ∃ source, headerSource F n = some source ∧
      HeaderObject F.limits reading source headers := by
    cases h with
    | plain hkind hobj => exact ⟨n, by simp [headerSource, hkind], hobj⟩
    | constructed hkind hcal hmem hhead hobj =>
      obtain ⟨-, -, hglo, -⟩ := hread _ _ hmem
      exact ⟨_, by simp [headerSource, hkind, hcal, hglo, hhead], hobj⟩
  refine .bind gives_facts ?_
  rw [bind_some, hsrc]
  cases hobj with
  | object f hholds hspells =>
    refine Finds.bind (Ask.finds_askObject hholds hs hread) ?_
    rintro _ t ht ⟨ref, rfl, href⟩
    refine Gives.bind (gives_visitProperties href fun e he => ?_) (gives_pure _)
    exact Gives.bind (((hspells e he).gives hs hread).grow ht) (gives_pure _)
  | nothing hholds =>
    refine Finds.bind (Ask.finds_askObject hholds hs hread) ?_
    rintro _ t - rfl
    exact gives_pure Table.empty

end ScriptAudit
