import ScriptAudit.Proofs.Engine.Evaluation

/-!
# Computations with a known answer

Under frames no answers are remembered, so what many computations give does not depend on when they
are run.
-/

namespace ScriptAudit

open Engine List
/-- What stays as it is in the session `t` that a computation leaves behind. -/
structure Session.Grows (s t : Session) : Prop where
  visited : t.visited = s.visited
  frames : t.frames = s.frames
  callSites : t.callSites = s.callSites
  shapes : ∀ (ref : ShapeRef) (shape : Shape), s.shapes[ref]? = some shape → t.shapes[ref]? = some shape

namespace Session.Grows

variable {s t u : Session}

lemma refl (s : Session) : s.Grows s := ⟨rfl, rfl, rfl, fun _ _ h => h⟩

lemma trans (hst : s.Grows t) (htu : t.Grows u) : s.Grows u where
  visited := htu.visited.trans hst.visited
  frames := htu.frames.trans hst.frames
  callSites := htu.callSites.trans hst.callSites
  shapes := fun ref shape h => htu.shapes ref shape (hst.shapes ref shape h)

lemma mark (h : s.Grows t) (k : Key) :
    Grows { s with visited := k :: s.visited } { t with visited := k :: t.visited } :=
  ⟨by rw [h.visited], h.frames, h.callSites, h.shapes⟩

lemma pushShape (s : Session) (shape : Shape) : s.Grows { s with shapes := s.shapes.push shape } := by
  refine ⟨rfl, rfl, rfl, fun ref known href => ?_⟩
  obtain ⟨hlt, -⟩ := Array.getElem?_eq_some_iff.mp href
  simp only [Array.getElem?_push_lt hlt]
  rw [← href, Array.getElem?_eq_getElem hlt]

lemma boundArgument? (h : s.Grows t) (b : Binding) : t.boundArgument? b = s.boundArgument? b := by
  unfold Session.boundArgument?
  rw [h.frames]

end Session.Grows

namespace Engine

/-- A judgement that a computation comes to an answer, in whatever sense, that can be put together
from its parts. -/
structure Judges (F : Facts) (J : (α : Type) → Engine α → α → Prop) : Prop where
  pure : ∀ {α : Type} (a : α), J α (pure a) a
  bind : ∀ {α β : Type} {x : Engine β} {f : β → Engine α} {b : β} {a : α}, J β x b → J α (f b) a → J α (x >>= f) a
  facts : J Facts facts F

namespace Judges

variable {F : Facts} {J : (α : Type) → Engine α → α → Prop} (hJ : Judges F J)
include hJ

lemma model : J Model model F.model := hJ.bind hJ.facts (hJ.pure _)

lemma limits : J Limits limits F.limits := hJ.bind hJ.facts (hJ.pure _)

lemma globals : J (Option Globals) globals F.globals := hJ.bind hJ.facts (hJ.pure _)

lemma nameOf {n : Node} {name : String} (h : n.name = some name) : J String (nameOf n) name := by
  unfold Engine.nameOf
  rw [h]
  exact hJ.pure name

lemma mapM {α γ : Type} {f : γ → Engine α} {g : γ → α} {xs : List γ}
    (h : ∀ x ∈ xs, J α (f x) (g x)) : J (List α) (xs.mapM f) (xs.map g) := by
  have loop (xs : List γ) (done : List α) (hxs : ∀ x ∈ xs, J α (f x) (g x)) :
      J (List α) (List.mapM.loop f xs done) (done.reverse ++ xs.map g) := by
    induction xs generalizing done with
    | nil =>
      rw [map_nil, append_nil]
      exact hJ.pure _
    | cons x rest ih =>
      obtain ⟨hx, hrest⟩ := forall_mem_cons.mp hxs
      have hnext := ih (g x :: done) hrest
      rw [reverse_cons, append_assoc] at hnext
      exact hJ.bind hx hnext
  exact loop xs [] h

lemma foldlM {α γ : Type} {f : α → γ → Engine α} {g : α → γ → α} {xs : List γ} {a : α}
    (h : ∀ a, ∀ x ∈ xs, J α (f a x) (g a x)) : J α (xs.foldlM f a) (xs.foldl g a) := by
  induction xs generalizing a with
  | nil => exact hJ.pure a
  | cons x rest ih => exact hJ.bind (h a x mem_cons_self) (ih fun b y hy => h b y (mem_cons_of_mem x hy))

end Judges

variable {α β γ : Type} {F : Facts} {s t : Session} {a : α} {f : β → Engine α} {b : β} {x : Engine α}
  {Q R : α → Session → Prop} {xs : List γ} {ref : ShapeRef} {shape : Shape}

def Finds (F : Facts) (s : Session) (x : Engine α) (Q : α → Session → Prop) : Prop :=
  ∀ s', s.Grows s' → ∃ a t, x.Evaluates F s' (.ok a t) ∧ s'.Grows t ∧ Q a t

def Gives (F : Facts) (s : Session) (x : Engine α) (a : α) : Prop :=
  x.Finds F s fun b _ => b = a

lemma evaluates_pure (a : α) : (pure a : Engine α).Evaluates F s (.ok a s) := .done a s

lemma Evaluates.bind {x : Engine β} {o : Outcome α} (hx : x.Evaluates F s (.ok b t)) (hf : (f b).Evaluates F t o) :
    (x >>= f).Evaluates F s o := .andThen hx hf

lemma Finds.mono (h : x.Finds F s Q) (hQR : ∀ a t, Q a t → R a t) : x.Finds F s R := by
  intro s' hs'
  obtain ⟨a, t, hx, ht, hQ⟩ := h s' hs'
  exact ⟨a, t, hx, ht, hQR a t hQ⟩

lemma Finds.grow (h : x.Finds F s Q) (hst : s.Grows t) : x.Finds F t Q := fun s' hs' => h s' (hst.trans hs')

lemma Finds.bind {x : Engine β} {Q : β → Session → Prop} (hx : x.Finds F s Q)
    (hf : ∀ b t, s.Grows t → Q b t → (f b).Finds F t R) : (x >>= f).Finds F s R := by
  intro s' hs'
  obtain ⟨b, t, hxt, ht, hQ⟩ := hx s' hs'
  obtain ⟨a, u, hfu, hu, hR⟩ := hf b t (hs'.trans ht) hQ t (.refl t)
  exact ⟨a, u, .andThen hxt hfu, ht.trans hu, hR⟩

lemma Gives.bindFinds {x : Engine β} (hx : x.Gives F s b) (hf : (f b).Finds F s R) : (x >>= f).Finds F s R := by
  refine .bind hx ?_
  rintro _ t ht rfl
  exact hf.grow ht

lemma Gives.bind {x : Engine β} (hx : x.Gives F s b) (hf : (f b).Gives F s a) : (x >>= f).Gives F s a := hx.bindFinds hf

lemma Finds.run (h : x.Finds F s Q) : ∃ a t, x.Evaluates F s (.ok a t) ∧ Q a t := by
  obtain ⟨a, t, hx, -, hQ⟩ := h s (.refl s)
  exact ⟨a, t, hx, hQ⟩

lemma finds_pure (h : ∀ t, s.Grows t → Q a t) : (pure a : Engine α).Finds F s Q :=
  fun s' hs' => ⟨a, s', .done a s', .refl s', h s' hs'⟩

lemma gives_pure (a : α) : (pure a : Engine α).Gives F s a := finds_pure fun _ _ => rfl

lemma gives_facts : facts.Gives F s F := fun s' _ => ⟨F, s', .facts s', .refl s', rfl⟩

lemma finds_session : session.Finds F s fun t u => s.Grows t ∧ t = u :=
  fun s' hs' => ⟨s', s', .session s', .refl s', hs', rfl⟩

lemma judges_gives : Judges F fun _ x a => x.Gives F s a where
  pure := gives_pure
  bind := .bind
  facts := gives_facts

lemma gives_model : model.Gives F s F.model := judges_gives.model

lemma gives_limits : limits.Gives F s F.limits := judges_gives.limits

lemma gives_bound (b : Binding) : (boundArgument? b).Gives F s (s.boundArgument? b) := by
  refine Finds.bind finds_session fun t u _ ht => ?_
  rw [← ht.1.boundArgument? b]
  exact gives_pure _

lemma gives_truncate : truncate.Gives F s () := fun s' _ => ⟨(), _, .update _ s', ⟨rfl, rfl, rfl, fun _ _ h => h⟩, rfl⟩

lemma finds_ask {q : Question α} (h : q.rule.Finds F s Q) : (ask q).Finds F s Q := by
  intro s' hs'
  obtain ⟨b, t, hrule, ht, hb⟩ := h s' hs'
  exact ⟨b, t, .ask hrule, ht, hb⟩

lemma gives_ask {q : Question α} (h : q.rule.Gives F s a) : (ask q).Gives F s a := finds_ask h

lemma finds_guarded {k : Key} (hk : k ∉ s.visited) (h : x.Gives F { s with visited := k :: s.visited } a) :
    (guarded k x).Finds F s fun r _ => ∃ whole, r = some (a, whole) := by
  intro s' hs'
  have hk' : s'.visited.contains k = false := by simpa [hs'.visited] using hk
  obtain ⟨_, t, hx, ht, rfl⟩ := h _ (hs'.mark k)
  exact ⟨_, _, .guarded hk' hx, ⟨by simp [ht.visited], ht.frames, ht.callSites, ht.shapes⟩, _, rfl⟩

lemma gives_underOuter {index : Nat} (h : x.Gives F { s with frames := s.frames.take index } a) :
    (underOuter index x).Gives F s a := by
  intro s' hs'
  obtain ⟨b, t, hx, ht, hb⟩ := h { s' with frames := s'.frames.take index }
    ⟨hs'.visited, by rw [hs'.frames], hs'.callSites, hs'.shapes⟩
  have hframes : t.frames ++ s'.frames.drop index = s'.frames := by rw [ht.frames, take_append_drop]
  exact ⟨b, _, .underOuter hx, ⟨ht.visited, hframes, ht.callSites, ht.shapes⟩, hb⟩

lemma finds_mapM {δ : Type} {f : γ → Engine α} {h : α → δ} {g : γ → δ}
    (hxs : ∀ x ∈ xs, (f x).Finds F s fun a _ => h a = g x) : (xs.mapM f).Finds F s fun as _ => as.map h = xs.map g := by
  have loop (xs : List γ) (done : List α) (s : Session) (hxs : ∀ x ∈ xs, (f x).Finds F s fun a _ => h a = g x) :
      (List.mapM.loop f xs done).Finds F s fun as _ =>
        as.map h = done.reverse.map h ++ xs.map g := by
    induction xs generalizing done s with
    | nil => exact finds_pure fun _ _ => by simp
    | cons x rest ih =>
      obtain ⟨hx, hrest⟩ := forall_mem_cons.mp hxs
      refine .bind hx fun a t ht ha => ?_
      refine (ih (a :: done) t fun y hy => (hrest y hy).grow ht).mono fun as _ has => ?_
      simpa [ha] using has
  exact (loop xs [] s hxs).mono fun as _ has => by simpa using has

lemma gives_mapM {f : γ → Engine α} {g : γ → α} (h : ∀ x ∈ xs, (f x).Gives F s (g x)) :
    (xs.mapM f).Gives F s (xs.map g) := judges_gives.mapM h

lemma finds_foldlM {δ : Type} {f : α → γ → Engine α} {h : α → δ} {g : δ → γ → δ}
    (hxs : ∀ a, ∀ x ∈ xs, (f a x).Finds F s fun b _ => h b = g (h a) x) :
    (xs.foldlM f a).Finds F s fun b _ => h b = xs.foldl g (h a) := by
  induction xs generalizing a s with
  | nil => exact finds_pure fun _ _ => rfl
  | cons x rest ih =>
    refine .bind (hxs a x mem_cons_self) fun b t ht hb => ?_
    rw [foldl_cons, ← hb]
    exact ih fun c y hy => (hxs c y (mem_cons_of_mem x hy)).grow ht

lemma finds_newShape (shape : Shape) : (newShape shape).Finds F s fun ref t => t.shapes[ref]? = some shape := by
  intro s' _
  refine ⟨s'.shapes.size, _, .andThen (.session s') (.andThen (.update _ s') (.done _ _)), .pushShape s' shape, ?_⟩
  exact Array.getElem?_push_size

lemma gives_shapeAt (h : s.shapes[ref]? = some shape) : (shapeAt ref).Gives F s shape := by
  refine Finds.bind finds_session fun t u _ ht => ?_
  rw [ht.1.shapes ref shape h]
  exact gives_pure shape

lemma gives_propertyOf? (h : s.shapes[ref]? = some shape) (key : String) :
    (propertyOf? (some ref) key).Gives F s (shape.properties.get? key) := .bind (gives_shapeAt h) (gives_pure _)

lemma gives_checkSize (h : s.shapes[ref]? = some shape) : (checkSize ref shape.properties.size).Gives F s () := by
  refine .bind (gives_shapeAt h) ?_
  rw [if_neg (by simp)]
  exact gives_pure ()

section Consider

variable {k : Key} {depth : Nat} {none_ : α} {lookUp : Memory → Option α} {keep : α → Memory → Memory}
  {rule : Engine α}

lemma gives_consider_cut (hd : F.limits.maxDepth < depth) (rule : Option (Engine α)) :
    (consider k depth none_ lookUp keep rule).Gives F s none_ := by
  refine .bind gives_limits ?_
  rw [if_pos hd]
  exact .bind gives_truncate (gives_pure none_)

lemma gives_consider_none : (consider k depth none_ lookUp keep none).Gives F s none_ := by
  by_cases hd : F.limits.maxDepth < depth
  · exact gives_consider_cut hd none
  · refine .bind gives_limits ?_
    rw [if_neg hd]
    exact gives_pure none_

lemma evaluates_consider {o : Outcome α} (hd : depth ≤ F.limits.maxDepth)
    (hmemo : (if !s.frames.isEmpty then none else lookUp s.toMemory) = none)
    (h : (guarded k rule >>= fun r => match r with
      | none => pure none_
      | some (a, whole) =>
        if whole && !!s.frames.isEmpty then do
          update (keep a)
          pure a
        else pure a).Evaluates F s o) :
    (consider k depth none_ lookUp keep (some rule)).Evaluates F s o := by
  refine .andThen (.andThen (.facts s) (.done _ s)) ?_
  rw [if_neg (Nat.not_lt.mpr hd)]
  refine .andThen (.session s) ?_
  simp only [hmemo]
  exact h

lemma gives_consider_refused (hframes : s.frames ≠ []) (hk : k ∈ s.visited)
    (rule : Engine α) : (consider k depth none_ lookUp keep (some rule)).Gives F s none_ := by
  by_cases hd : F.limits.maxDepth < depth
  · exact gives_consider_cut hd _
  intro s' hs'
  have hframed : s'.frames.isEmpty = false := by simpa [hs'.frames] using hframes
  have hk' : s'.visited.contains k = true := by simpa [hs'.visited] using hk
  refine ⟨none_, _, evaluates_consider (Nat.not_lt.mp hd) (by simp [hframed])
    (.andThen (.refused rule hk') (.done none_ _)), ?_, rfl⟩
  exact ⟨rfl, rfl, rfl, fun _ _ h => h⟩

section

variable (hd : depth ≤ F.limits.maxDepth)
include hd

lemma finds_consider (hframes : s.frames ≠ []) (hk : k ∉ s.visited)
    (hQ : ∀ a t keys, Q a t → Q a { t with visited := keys })
    (h : rule.Finds F { s with visited := k :: s.visited } Q) :
    (consider k depth none_ lookUp keep (some rule)).Finds F s Q := by
  intro s' hs'
  have hframed : s'.frames.isEmpty = false := by simpa [hs'.frames] using hframes
  have hk' : s'.visited.contains k = false := by simpa [hs'.visited] using hk
  obtain ⟨a, t, hrule, ht, hQt⟩ := h _ (hs'.mark k)
  have hguard := Evaluates.guarded hk' hrule
  refine ⟨a, _, evaluates_consider hd (by simp [hframed]) (.andThen hguard ?_), ?_,
    hQ a t (t.visited.erase k) hQt⟩
  · simp only [hframed, Bool.not_false, Bool.not_true, Bool.and_false]
    exact .done a _
  · exact ⟨by simp [ht.visited], ht.frames, ht.callSites, ht.shapes⟩

lemma gives_consider (hframes : s.frames ≠ []) (hk : k ∉ s.visited)
    (h : rule.Gives F { s with visited := k :: s.visited } a) :
    (consider k depth none_ lookUp keep (some rule)).Gives F s a :=
  finds_consider hd hframes hk (fun _ _ _ h => h) h

lemma evaluates_consider_kept (hlookUp : lookUp s.toMemory = none) (hk : s.visited.contains k = false)
    (h : rule.Evaluates F { s with visited := k :: s.visited } (.ok a t)) :
    ∃ u, (consider k depth none_ lookUp keep (some rule)).Evaluates F s (.ok a u) ∧
      (u.toMemory = t.toMemory ∨ u.toMemory = keep a t.toMemory) := by
  have hguard := Evaluates.guarded hk h
  simp only [Outcome.unmark] at hguard
  have htail (whole : Bool) (t : Session) : ∃ u, (if whole && !!s.frames.isEmpty then do
      update (keep a)
      pure a
    else pure a : Engine α).Evaluates F t (.ok a u) ∧ (u.toMemory = t.toMemory ∨ u.toMemory = keep a t.toMemory) := by
    split
    · exact ⟨_, .bind (.update _ _) (evaluates_pure a), .inr rfl⟩
    · exact ⟨_, evaluates_pure a, .inl rfl⟩
  obtain ⟨u, hu, hmemo⟩ := htail _ _
  exact ⟨u, evaluates_consider hd (by simp [hlookUp]) (.bind hguard hu), hmemo⟩

end

end Consider

end Engine

end ScriptAudit
