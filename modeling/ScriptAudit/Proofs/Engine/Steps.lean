import ScriptAudit.Proofs.Engine.Changes

/-!
# The steps of a computation

What a search for callers, or for the texts that they supply, remembers depends on how the search
went.
-/

namespace ScriptAudit

def Facts.Indexes (F : Facts) (b : Binding) : Prop :=
  ∃ u : Nat, F.model.bindings[u]? = some b

lemma Facts.indexes_of_binding? {F : Facts} {n : Node} {b : Binding} (h : F.model.binding? n = some b) :
    F.Indexes b := by
  obtain ⟨u, -, hu⟩ := Option.bind_eq_some_iff.mp h
  exact ⟨u, hu⟩

lemma Facts.indexes_of_rootBinding? {F : Facts} {n : Node} {b : Binding} (h : F.model.rootBinding? n = some b) :
    F.Indexes b := by
  unfold Model.rootBinding? at h
  split at h
  · exact indexes_of_binding? h
  · cases h

namespace Engine

variable {α β γ : Type} {known : Option Facts} {R : Memory → Memory → Prop} {x : Engine α} {xs : List γ}

def May (F : Facts) : {α : Type} → Engine α → α → Prop
  | _, .done a, b => b = a
  | _, .andThen x f, b => ∃ a, x.May F a ∧ (f a).May F b
  | _, .facts, b => b = F
  | _, _, _ => True

/-- The searches that count as single steps. With known facts, they are for the program's own
parameters. -/
inductive Search (known : Option Facts) : {α : Type} → Engine α → Prop
  | callSites (f : Node) : Search known (Ask.callSites f)
  | paramValues {b} (property : Option String) (depth : Nat) : (∀ F, known = some F → F.Indexes b) →
      Search known (Ask.paramValues b property depth)

def StepsBy (known : Option Facts) (R : Memory → Memory → Prop) : {α : Type} → Engine α → Prop
  | _, .andThen x f => Search known (.andThen x f) ∨
      x.StepsBy known R ∧ ∀ b, (∀ F, known = some F → x.May F b) → (f b).StepsBy known R
  | _, .update f => ∀ m : Memory, R m (f m)
  | _, .guarded _ x => x.StepsBy known R
  | _, .underFrame _ x => x.StepsBy known R
  | _, .underOuter _ x => x.StepsBy known R
  | _, _ => True

@[simp] lemma steps_pure (a : α) : (pure a : Engine α).StepsBy known R := trivial

@[simp] lemma steps_bind (x : Engine β) (f : β → Engine α) : (x >>= f).StepsBy known R ↔ Search known (x >>= f) ∨
      x.StepsBy known R ∧ ∀ b, (∀ F, known = some F → x.May F b) → (f b).StepsBy known R := Iff.rfl

lemma StepsBy.bind {x : Engine β} {f : β → Engine α} (hx : x.StepsBy known R) (hf : ∀ b, (f b).StepsBy known R) :
    (x >>= f).StepsBy known R := .inr ⟨hx, fun b _ => hf b⟩

@[simp] lemma steps_facts : facts.StepsBy known R := trivial

@[simp] lemma steps_session : session.StepsBy known R := trivial

@[simp] lemma steps_fail (e : Fault) : (fail e : Engine α).StepsBy known R := trivial

@[simp] lemma steps_ask (q : Question α) : (ask q).StepsBy known R := trivial

@[simp] lemma steps_guarded (k : Key) (x : Engine α) : (guarded k x).StepsBy known R ↔ x.StepsBy known R := Iff.rfl

@[simp] lemma steps_underFrame (frame : Frame) (x : Engine α) :
    (underFrame frame x).StepsBy known R ↔ x.StepsBy known R := Iff.rfl

@[simp] lemma steps_underOuter (index : Nat) (x : Engine α) :
    (underOuter index x).StepsBy known R ↔ x.StepsBy known R := Iff.rfl

@[simp] lemma steps_ite {c : Prop} [Decidable c] {y : Engine α} :
    (if c then x else y).StepsBy known R ↔ (c → x.StepsBy known R) ∧ (¬c → y.StepsBy known R) := by
  split <;> simp_all

lemma Search.stepsBy (h : Search known x) : x.StepsBy known R := by
  cases h with
  | callSites f => exact .inl (.callSites f)
  | paramValues property depth hb => exact .inl (.paramValues property depth hb)

@[simp] lemma steps_callSites (f : Node) : (Ask.callSites f).StepsBy known R := (Search.callSites f).stepsBy

lemma steps_paramValues {b : Binding} (hb : ∀ F, known = some F → F.Indexes b) (property : Option String)
    (depth : Nat) : (Ask.paramValues b property depth).StepsBy known R := (Search.paramValues property depth hb).stepsBy

@[simp] lemma steps_mapM {f : γ → Engine α} (h : ∀ x ∈ xs, (f x).StepsBy known R) : (xs.mapM f).StepsBy known R := by
  have loop : ∀ (xs : List γ) (done : List α), (∀ x ∈ xs, (f x).StepsBy known R) →
      (List.mapM.loop f xs done).StepsBy known R := by
    intro xs
    induction xs with
    | nil =>
      intro done _
      exact steps_pure _
    | cons x rest ih =>
      intro done hxs
      simp only [List.forall_mem_cons] at hxs
      exact .bind hxs.1 fun y => ih _ hxs.2
  exact loop xs [] h

@[simp] lemma steps_foldlM {f : α → γ → Engine α} {a : α} (h : ∀ a, ∀ x ∈ xs, (f a x).StepsBy known R) :
    (xs.foldlM f a).StepsBy known R := by
  induction xs generalizing a with
  | nil => exact steps_pure a
  | cons x rest ih =>
    exact .bind (h a x List.mem_cons_self) fun _ => ih fun a y hy => h a y (List.mem_cons_of_mem _ hy)

@[simp] lemma steps_anyM {p : γ → Engine Bool} (h : ∀ x ∈ xs, (p x).StepsBy known R) : (xs.anyM p).StepsBy known R := by
  induction xs with
  | nil => exact steps_pure false
  | cons x rest ih =>
    simp only [List.forall_mem_cons] at h
    refine .bind h.1 fun b => ?_
    cases b
    · exact ih h.2
    · exact steps_pure true

@[simp] lemma steps_model : model.StepsBy known R := by simp [model]

@[simp] lemma steps_globals : globals.StepsBy known R := by simp [globals]

@[simp] lemma steps_limits : limits.StepsBy known R := by simp [limits]

lemma StepsBy.bind_model {f : Model → Engine α}
    (hf : ∀ m, (∀ F, known = some F → m = F.model) → (f m).StepsBy known R) : (model >>= f).StepsBy known R := by
  refine .inr ⟨steps_model, fun m hm => hf m fun F hF => ?_⟩
  obtain ⟨_, rfl, hm⟩ := hm F hF
  exact hm

@[simp] lemma steps_nameOf (n : Node) : (nameOf n).StepsBy known R := by
  unfold nameOf
  split <;> simp

@[simp] lemma steps_withCall (function call : Node) (offset : Nat) (hx : x.StepsBy known R) :
    (withCall function call offset x).StepsBy known R := by
  simp [withCall, hx]

@[simp] lemma steps_boundArgument? (b : Binding) : (boundArgument? b).StepsBy known R := by
  simp [boundArgument?]

@[simp] lemma steps_boundOf? (b : Option Binding) : (boundOf? b).StepsBy known R := by
  cases b <;> simp [boundOf?]

@[simp] lemma steps_isBound (function : Node) : (isBound function).StepsBy known R := by
  simp [isBound]

@[simp] lemma steps_shapeAt (ref : ShapeRef) : (shapeAt ref).StepsBy known R := by
  simp [shapeAt]

@[simp] lemma steps_checkSize (ref : ShapeRef) (size : Nat) : (checkSize ref size).StepsBy known R := by
  simp [checkSize]

@[simp] lemma steps_propertyOf? (ref : Option ShapeRef) (key : String) : (propertyOf? ref key).StepsBy known R := by
  cases ref <;> simp [propertyOf?]

@[simp] lemma steps_hasProperties (ref : Option ShapeRef) : (hasProperties ref).StepsBy known R := by
  cases ref <;> simp [hasProperties]

section OwnChanges

variable [Memory.HasOwnChanges R]

@[simp] lemma steps_truncate : truncate.StepsBy known R := Memory.HasOwnChanges.truncate

@[simp] lemma steps_newShape (shape : Shape) : (newShape shape).StepsBy known R :=
  .bind trivial fun _ => .bind (fun m => Memory.HasOwnChanges.newShape m shape) fun _ => trivial

lemma steps_changeShape (ref : ShapeRef) {f : Shape → Shape} (hf : ∀ shape : Shape, shape.Gains (f shape)) :
    (changeShape ref f).StepsBy known R := fun m => Memory.HasOwnChanges.changeShape m ref hf

@[simp] lemma steps_shapeOrNew (found : Option ShapeRef) (shape : Shape) :
    (shapeOrNew found shape).StepsBy known R := by
  cases found <;> simp [shapeOrNew]

@[simp] lemma steps_gather (found cand : Option ShapeRef) : (gather found cand).StepsBy known R := by
  cases cand with
  | none => exact steps_pure found
  | some c =>
    refine .bind (steps_shapeAt c) fun other => ?_
    cases found with
    | none => simp
    | some ref => exact .bind (steps_changeShape ref fun shape => .merge shape other) fun _ => trivial

lemma steps_consider {k : Key} {depth : Nat} {none_ : α} {lookUp : Memory → Option α} {keep : α → Memory → Memory}
    {rule : Option (Engine α)} (hkeep : ∀ a m, R m (keep a m)) (hrule : ∀ r, rule = some r → r.StepsBy known R) :
    (consider k depth none_ lookUp keep rule).StepsBy known R := by
  refine .bind steps_limits fun limits => steps_ite.mpr ⟨fun _ => by simp, fun _ => ?_⟩
  cases rule with
  | none => exact steps_pure _
  | some r =>
    refine .bind steps_session fun s => ?_
    dsimp only
    split
    · exact steps_pure _
    · refine .bind ((steps_guarded _ _).mpr (hrule r rfl)) fun found => ?_
      split
      · exact steps_pure _
      · exact steps_ite.mpr ⟨fun _ => .bind (hkeep _) fun _ => steps_pure _, fun _ => steps_pure _⟩

end OwnChanges

end Engine

end ScriptAudit
