import ScriptAudit.Proofs.Resolve.Settled

/-!
# What a computation comes to if its questions are answered right

`Forces` is read off a computation: whatever right answers its questions have, and whatever
properties shapes gain meanwhile, its result has a given property.
-/

namespace ScriptAudit

open Memory ScriptAudit.Frame
/-- The frames are as they were, and shapes have only gained properties. -/
structure Session.Widens (s t : Session) : Prop where
  frames : t.frames = s.frames
  memory : s.toMemory.Widens t.toMemory

namespace Session.Widens

variable {s t u : Session}

lemma refl (s : Session) : s.Widens s := ⟨rfl, .refl _⟩

lemma trans (h : s.Widens t) (h' : t.Widens u) : s.Widens u := ⟨h'.frames.trans h.frames, h.memory.trans h'.memory⟩

end Session.Widens

namespace Engine

def Forces (F : Facts) : {α : Type} → Engine α → Session → (α → Session → Prop) → Prop
  | _, .done a, s, Q => Q a s
  | _, .andThen x f, s, Q => x.Forces F s fun b t => (f b).Forces F t Q
  | _, .facts, s, Q => Q F s
  | _, .session, s, Q => Q s s
  | _, .update f, s, Q => Q () { s with toMemory := f s.toMemory }
  | _, .fail _, _, _ => True
  | _, .ask q, s, Q => ∀ a t, s.Widens t → q.Right F s.frames a t.toMemory → Q a t
  | _, .guarded _ _, s, Q => ∀ r t, s.Widens t → Q r t
  | _, .underFrame frame x, s, Q =>
    x.Forces F { s with frames := s.frames ++ [frame] } fun a t => Q a { t with frames := t.frames.dropLast }
  | _, .underOuter index x, s, Q =>
    x.Forces F { s with frames := s.frames.take index } fun a t =>
      Q a { t with frames := t.frames ++ s.frames.drop index }

variable {α β γ : Type} {F : Facts} {frames : List Frame} {s t : Session} {a : α} {x : Engine α}
  {Q : α → Session → Prop} {f : β → Engine α} {b : β} {shape : Option Shape} {index offset : Nat}
  {function call : Node}

lemma Forces.mono {R : α → Session → Prop} (h : x.Forces F s Q) (hQR : ∀ a t, Q a t → R a t) : x.Forces F s R := by
  induction x generalizing s with
  | done a => exact hQR a s h
  | andThen x f ihx ihf => exact ihx h fun b t hb => ihf b hb hQR
  | facts => exact hQR F s h
  | session => exact hQR s s h
  | update f => exact hQR () _ h
  | fail e => trivial
  | ask q => exact fun a t ht ha => hQR a t (h a t ht ha)
  | guarded k x _ => exact fun r t ht => hQR r t (h r t ht)
  | underFrame frame x ih => exact ih h fun a t => hQR a _
  | underOuter index x ih => exact ih h fun a t => hQR a _

def Tells (F : Facts) (s : Session) (x : Engine α) (Q : α → Session → Prop) : Prop :=
  x.Forces F s fun a t => s.Widens t ∧ Q a t

def Yields (F : Facts) (frames : List Frame) (x : Engine α) (a : α) : Prop :=
  ∀ s : Session, s.frames = frames → x.Tells F s fun b _ => b = a

def YieldsShape (F : Facts) (frames : List Frame) (x : Engine (Option ShapeRef)) (shape : Option Shape) :
    Prop := ∀ s : Session, s.frames = frames → x.Tells F s fun ref t => t.toMemory.Shows ref shape

lemma Tells.mono {R : α → Session → Prop} (h : x.Tells F s Q) (hQR : ∀ a t, s.Widens t → Q a t → R a t) :
    x.Tells F s R := Forces.mono h fun a t ht => ⟨ht.1, hQR a t ht.1 ht.2⟩

lemma Tells.bind {x : Engine β} {P : β → Session → Prop} (hx : x.Tells F s P)
    (hf : ∀ b t, s.Widens t → P b t → (f b).Tells F t Q) : (x >>= f).Tells F s Q := by
  show x.Forces F s fun b t => (f b).Forces F t fun a u => s.Widens u ∧ Q a u
  refine .mono hx fun b t ⟨ht, hb⟩ => ?_
  exact .mono (hf b t ht hb) fun _ _ ⟨hu, ha⟩ => ⟨ht.trans hu, ha⟩

lemma tells_pure (h : Q a s) : (pure a : Engine α).Tells F s Q := ⟨.refl s, h⟩

lemma Yields.bindTells {x : Engine β} (hx : x.Yields F frames b) (hs : s.frames = frames)
    (hf : ∀ t, s.Widens t → (f b).Tells F t Q) : (x >>= f).Tells F s Q := by
  refine .bind (hx s hs) ?_
  rintro _ t ht rfl
  exact hf t ht

lemma Yields.bind {x : Engine β} (hx : x.Yields F frames b) (hf : (f b).Yields F frames a) :
    (x >>= f).Yields F frames a := fun _ hs => hx.bindTells hs fun t ht => hf t (ht.frames.trans hs)

lemma Yields.bindShape {x : Engine β} {f : β → Engine (Option ShapeRef)} (hx : x.Yields F frames b)
    (hf : (f b).YieldsShape F frames shape) : (x >>= f).YieldsShape F frames shape :=
  fun _ hs => hx.bindTells hs fun t ht => hf t (ht.frames.trans hs)

lemma yielding : Judges F fun _ x a => x.Yields F frames a where
  pure _ _ _ := tells_pure rfl
  bind := .bind
  facts s _ := ⟨.refl s, rfl⟩

lemma judges_widened (s : Session) : Judges F fun _ x a => ∀ t, s.Widens t → x.Tells F t fun b _ => b = a where
  pure _ _ _ := tells_pure rfl
  bind hx hf t ht := by
    refine .bind (hx t ht) ?_
    rintro _ u hu rfl
    exact hf u (ht.trans hu)
  facts t _ := ⟨.refl t, rfl⟩

lemma yields_pure (a : α) : (pure a : Engine α).Yields F frames a := yielding.pure a

lemma yieldsShape_none : (pure none : Engine (Option ShapeRef)).YieldsShape F frames none :=
  fun _ _ => tells_pure trivial

lemma YieldsShape.yields {x : Engine (Option ShapeRef)} (h : x.YieldsShape F frames none) :
    x.Yields F frames none := fun s hs => (h s hs).mono fun _ _ _ href => shows_none_iff.mp href

lemma yields_boundArgument? (b : Binding) : (boundArgument? b).Yields F frames (bound? frames b) := by
  rintro s rfl
  exact ⟨.refl s, rfl⟩

lemma yields_isBound (function : Node) : (isBound function).Yields F frames (frames.any (·.function == function)) := by
  rintro s rfl
  exact ⟨.refl s, rfl⟩

lemma tells_underOuter {Q : α → Memory → Prop}
    (h : x.Tells F { s with frames := s.frames.take index } fun a t => Q a t.toMemory) :
    (underOuter index x).Tells F s fun a t => Q a t.toMemory := by
  show x.Forces F { s with frames := s.frames.take index } _
  refine .mono h fun b t ⟨ht, hb⟩ => ⟨⟨?_, ht.memory⟩, hb⟩
  simp only [ht.frames, List.take_append_drop]

lemma yields_underOuter (h : x.Yields F (frames.take index) a) : (underOuter index x).Yields F frames a := by
  rintro s rfl
  exact tells_underOuter (Q := fun b _ => b = a) (h _ rfl)

lemma yieldsShape_underOuter {x : Engine (Option ShapeRef)} (h : x.YieldsShape F (frames.take index) shape) :
    (underOuter index x).YieldsShape F frames shape := by
  rintro s rfl
  exact tells_underOuter (Q := fun ref m => m.Shows ref shape) (h _ rfl)

lemma tells_withCall {Q : α → Memory → Prop}
    (h : x.Tells F { s with frames := s.frames ++ [ofCall F.model function call offset] } fun a t => Q a t.toMemory) :
    (withCall function call offset x).Tells F s fun a t => Q a t.toMemory := by
  show x.Forces F { s with frames := s.frames ++ [ofCall F.model function call offset] } _
  refine .mono h fun b t ⟨ht, hb⟩ => ⟨⟨?_, ht.memory⟩, hb⟩
  simp only [ht.frames, List.dropLast_concat]

lemma yields_withCall (h : x.Yields F (frames ++ [ofCall F.model function call offset]) a) :
    (withCall function call offset x).Yields F frames a := by
  rintro s rfl
  exact tells_withCall (Q := fun b _ => b = a) (h _ rfl)

lemma yieldsShape_withCall {x : Engine (Option ShapeRef)}
    (h : x.YieldsShape F (frames ++ [ofCall F.model function call offset]) shape) :
    (withCall function call offset x).YieldsShape F frames shape := by
  rintro s rfl
  exact tells_withCall (Q := fun ref m => m.Shows ref shape) (h _ rfl)

lemma tells_shapeAt (ref : ShapeRef) :
    (shapeAt ref).Tells F s fun shape t => s = t ∧ shape = s.shapes[ref]?.getD {} := ⟨.refl s, rfl, rfl⟩

lemma tells_propertyOf? {ref : Option ShapeRef} {key : String} {value : Option Node}
    (hshows : s.toMemory.Shows ref shape) (hkeyed : Shape.Keyed shape key value) :
    (propertyOf? ref key).Tells F s fun v _ => v = value := by
  cases hkeyed with
  | missing =>
    obtain rfl := shows_none_iff.mp hshows
    exact tells_pure rfl
  | own hval =>
    obtain ⟨r, wider, rfl, hwider, hgains⟩ := shows_some_iff.mp hshows
    refine .bind (tells_shapeAt r) ?_
    rintro _ _ - ⟨rfl, rfl⟩
    refine tells_pure ?_
    rw [hwider]
    exact hgains.get? hval

lemma tells_newShape (shape : Shape) : (newShape shape).Tells F s fun ref t => t.shapes[ref]? = some shape := by
  refine ⟨⟨rfl, fun ref old href => ⟨old, ?_, .refl old⟩⟩, Array.getElem?_push_size⟩
  obtain ⟨hlt, hold⟩ := Array.getElem?_eq_some_iff.mp href
  simp [Array.getElem?_push_lt hlt, hold]

lemma tells_changeShape (ref : ShapeRef) {f : Shape → Shape} (hf : ∀ shape : Shape, shape.Gains (f shape)) :
    (changeShape ref f).Tells F s fun _ _ => True := ⟨⟨rfl, (Memory.Quiet.modify s.toMemory ref hf).shapes⟩, trivial⟩

lemma tells_changeShape_at {ref : ShapeRef} {shape : Shape} (href : s.shapes[ref]? = some shape)
    {f : Shape → Shape} (hf : ∀ shape : Shape, shape.Gains (f shape)) :
    (changeShape ref f).Tells F s fun _ t => t.shapes[ref]? = some (f shape) := by
  refine ⟨⟨rfl, (Memory.Quiet.modify s.toMemory ref hf).shapes⟩, ?_⟩
  simp [Array.getElem?_modify, href]

lemma tells_gather_some (ref : ShapeRef) (cand : Option ShapeRef) :
    (gather (some ref) cand).Tells F s fun r _ => r = some ref := by
  cases cand with
  | none => exact tells_pure rfl
  | some c =>
    refine .bind (tells_shapeAt c) fun other _ _ _ => ?_
    exact .bind (tells_changeShape ref fun shape => .merge shape other) fun _ _ _ _ => tells_pure rfl

end Engine

lemma Shape.Gains.copy {shape wider : Shape} (h : shape.Gains wider) :
    shape.copy.Gains (Shape.merge { origin := wider.origin } wider false) where
  properties := by
    obtain ⟨more, hmore⟩ := h.properties
    simp only [Shape.copy, Shape.merge, Bool.false_eq_true, if_false]
    rw [← hmore, List.foldl_append]
    exact entries_insertNews more _
  origin n hn := by
    have hshape : shape.origin = some n := by simpa [Shape.copy, Shape.merge] using hn
    simp [Shape.merge, h.origin n hshape]

namespace Engine

variable {F : Facts} {frames : List Frame} {s t : Session}

lemma tells_gather_none {cand : Option ShapeRef} {shape : Option Shape} (h : s.toMemory.Shows cand shape) :
    (gather none cand).Tells F s fun r t => t.toMemory.Shows r (shape.map Shape.copy) := by
  cases shape with
  | none =>
    obtain rfl := shows_none_iff.mp h
    exact tells_pure trivial
  | some shape =>
    obtain ⟨c, wider, rfl, hwider, hgains⟩ := shows_some_iff.mp h
    refine .bind (tells_shapeAt c) ?_
    rintro _ _ - ⟨rfl, rfl⟩
    rw [hwider]
    refine .bind (tells_newShape _) fun ref t _ href => tells_pure ?_
    exact ⟨_, href, hgains.copy⟩

end Engine

def Facts.AnswersRight (F : Facts) (fuel : Nat) : Prop :=
  ∀ (α : Type) (q : Question α) (s t : Session) (least : Option Nat) (a : α),
    F.nesting s.visited least ≤ fuel → q.Asked F → q.After least → s.Within F →
    s.toMemory.Faithful F → answerWithin fuel α q F s = .ok a t → s.Uncut t →
    q.Right F s.frames a t.toMemory

lemma steady_counts : Steady fun _ m m' => m.rejections ≤ m'.rejections ∧ m.truncations ≤ m'.truncations where
  quiet h := ⟨h.rejections, h.truncations⟩
  trans h h' := ⟨Nat.le_trans h.1 h'.1, Nat.le_trans h.2 h'.2⟩
  unmark h := h
  remember {_ q _ _ _ _} _ _ h := by cases q <;> exact h

namespace Engine

variable {α β : Type} {F : Facts} {s t u : Session} {a : α} {fuel : Nat}

lemma uncut_of_runs {x : Engine β} {y : Engine α} {b : β} (hx : x.Quiet) (hy : y.Quiet)
    (hrun : x.runWith (answerWithin fuel) F s = .ok b t) (hrun' : y.runWith (answerWithin fuel) F t = .ok a u)
    (hwhole : s.Uncut u) : s.Uncut t ∧ t.Uncut u := by
  have hbal := balanced_answer fuel
  have hst := hx.keeps (F := F) steady_counts hbal (answerWithin_keeps steady_counts fuel) s
  have htu := hy.keeps (F := F) steady_counts hbal (answerWithin_keeps steady_counts fuel) t
  rw [hrun] at hst
  rw [hrun'] at htu
  simp only [Outcome.session] at hst htu
  unfold Session.Uncut at *
  omega

lemma widens_of_runWith {x : Engine α} (hx : x.Quiet)
    (hrun : x.runWith (answerWithin fuel) F s = .ok a t) : s.Widens t := by
  have hbal := balanced_answer fuel
  have hrecalls := hx.keeps (F := F) steady_recalls hbal (answerWithin_keeps steady_recalls fuel) s
  rw [hrun] at hrecalls
  exact ⟨frames_runWith hbal hrun, hrecalls.shapes⟩

lemma Forces.holds (hF : F.Sound) (hkeep : F.AnswersKeep (Memory.Faithful F) fuel) (hright : F.AnswersRight fuel)
    {x : Engine α} {least : Option Nat} {P : α → Prop} {Q : α → Session → Prop} (hforces : x.Forces F s Q)
    (hquiet : x.Quiet) (hmeets : x.Meets F least P (Memory.Faithful F)) (hs : s.Within F)
    (hfaith : s.toMemory.Faithful F) (hfuel : F.nesting s.visited least ≤ fuel)
    (hrun : x.runWith (answerWithin fuel) F s = .ok a t) (hwhole : s.Uncut t) : Q a t := by
  induction x generalizing s t least with
  | done | facts | session | update =>
    cases hrun
    exact hforces
  | fail e => cases hrun
  | ask q =>
    have hwidens := widens_of_runWith (quiet_ask q) hrun
    exact hforces a t hwidens (hright _ q s t least a hfuel hmeets.1 hmeets.2.1 hs hfaith hrun hwhole)
  | guarded k x _ => exact hforces a t (widens_of_runWith (x := guarded k x) hquiet hrun)
  | andThen x f ihx ihf =>
    have hmeetsFirst : x.Meets F least (fun b => (f b).Meets F least P (Memory.Faithful F))
        (Memory.Faithful F) := hmeets
    have hfirst := hmeetsFirst.runWith_keeping hF Memory.Faithful.stable hkeep hs hfaith hfuel
    rw [runWith_andThen] at hrun
    cases hx : x.runWith (answerWithin fuel) F s with
    | error e u =>
      rw [hx] at hrun
      cases hrun
    | ok b u =>
      rw [hx] at hrun hfirst
      obtain ⟨hsu, hut⟩ := uncut_of_runs hquiet.1 (hquiet.2 b) hx hrun hwhole
      have hvis := visited_runWith (balanced_answer fuel) hx
      have hrest := ihx hforces hquiet.1 hmeetsFirst hs hfaith hfuel hx hsu
      exact ihf b hrest (hquiet.2 b) hfirst.1.2 hfirst.1.1 hfirst.2 (by rwa [hvis]) hrun hut
  | underFrame frame x ih =>
    simp only [runWith] at hrun
    split at hrun
    next b u hx =>
      cases hrun
      have hinner : x.Forces F { s with frames := s.frames ++ [frame] } fun a t =>
          Q a { t with frames := t.frames.dropLast } := hforces
      exact (ih hinner hquiet hmeets.2 (hs.underFrame hmeets.1) hfaith hfuel hx hwhole :)
    · cases hrun
  | underOuter index x ih =>
    simp only [runWith] at hrun
    split at hrun
    next b u hx =>
      cases hrun
      have hinner : x.Forces F { s with frames := s.frames.take index } fun a t =>
          Q a { t with frames := t.frames ++ s.frames.drop index } := hforces
      exact (ih hinner hquiet hmeets (hs.underOuter index) hfaith hfuel hx hwhole :)
    · cases hrun

end Engine

end ScriptAudit
