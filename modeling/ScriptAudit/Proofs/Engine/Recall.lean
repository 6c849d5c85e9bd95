import ScriptAudit.Proofs.Engine.Evaluation
import ScriptAudit.Proofs.Resolve.Quiet

/-!
# Remembered answers stay

An answer is remembered only where its question is answered, and only if there was none.
-/

namespace ScriptAudit

open Ask Engine Outcome Question Memory

variable {F : Facts} {α β : Type} {q : Question α} {R : Memory → Memory → Prop} {x : Engine α} {P : α → Memory → Prop}

namespace Memo

variable {κ : Type} [BEq κ] [LawfulBEq κ] {t : Memo κ α} {k k' : κ} {a : α}

lemma get?_insert_self : (t.insert k a).get? k = some a := by
  simp [get?, insert]

lemma get?_insert_of_ne (h : k' ≠ k) : (t.insert k a).get? k' = t.get? k' := by
  have hne : (k' == k) = false := beq_eq_false_iff_ne.mpr h
  simp [get?, insert, List.lookup_cons, hne]

end Memo

def Facts.searchFrom (F : Facts) (n : Node) : Engine Flow :=
  follow (F.limits.maxCallers * 4) F.limits.maxDepth
    { seen := [n.ident], work := [(⟨n, if n.kind.isFunction then bindingRoute F n else .directName⟩, 0)] }

namespace Question

def key : {α : Type} → Question α → Key
  | _, .values n property _ => ⟨.values, n.ident, property⟩
  | _, .object n _ => ⟨.object, n.ident, none⟩
  | _, .array n _ => ⟨.array, n.ident, none⟩
  | _, .functions n _ => ⟨.functions, n.ident, none⟩
  | _, .aliases n => ⟨.receivers, n.ident, none⟩

def remembered : {α : Type} → Question α → Memory → Option α
  | _, .values n property _, m => m.values.get? (n.ident, property)
  | _, .object n _, m => m.objects.get? n.ident
  | _, .array n _, m => m.arrays.get? n.ident
  | _, .functions n _, m => m.functions.get? n.ident
  | _, .aliases n, m => m.aliases.get? n.ident

def remember : {α : Type} → Question α → α → Memory → Memory
  | _, .values n property _, a, m => { m with values := m.values.insert (n.ident, property) a }
  | _, .object n _, a, m => { m with objects := m.objects.insert n.ident a }
  | _, .array n _, a, m => { m with arrays := m.arrays.insert n.ident a }
  | _, .functions n _, a, m => { m with functions := m.functions.insert n.ident a }
  | _, .aliases n, a, m => { m with aliases := m.aliases.insert n.ident a }

variable {p : Question β} {a : α} {m m' : Memory}

lemma remembered_remember : q.remembered (q.remember a m) = some a := by
  cases q <;> exact Memo.get?_insert_self

lemma remembered_other (h : p.key ≠ q.key) : p.remembered (q.remember a m) = p.remembered m := by
  cases q <;> cases p <;> first
    | rfl
    | exact Memo.get?_insert_of_ne fun heq => h (by simp_all [key])

lemma remembered_of_quiet (h : m.Quiet m') (q : Question α) : q.remembered m' = q.remembered m := by
  cases q <;> simp only [remembered, h.values, h.objects, h.arrays, h.functions, h.aliases]

def plain? : {α : Type} → Question α → Option α
  | _, .values n none _ => (n.literalText?.orElse fun _ => plainTemplate? n).map fun text => [text]
  | _, _ => none

def depth : {α : Type} → Question α → Nat
  | _, .values _ _ depth | _, .object _ depth | _, .array _ depth | _, .functions _ depth => depth
  | _, .aliases _ => 0

def nothing : {α : Type} → Question α → α
  | _, .values .. | _, .functions .. | _, .aliases _ => []
  | _, .object .. | _, .array .. => none

def body? (F : Facts) : {α : Type} → Question α → Option (Engine α)
  | _, .values n none depth => valuesRule n depth
  | _, .values n (some name) depth => some (propertyValues n name depth)
  | _, .object n depth => objectRule n depth
  | _, .array n depth => arrayRule n depth
  | _, .functions n depth => functionsRule n depth
  | _, .aliases n => some (return (← F.searchFrom n).found)

def recalled (s : Session) : {α : Type} → Question α → Option α
  | _, .aliases n => s.aliases.get? n.ident
  | _, q => if s.frames = [] then q.remembered s.toMemory else none

lemma steps_body {known : Option Facts} [HasOwnChanges R] {r : Engine α} (hr : q.body? F = some r) :
    r.StepsBy known R := by
  cases q with
  | values n property depth =>
    cases property with
    | none => exact steps_valuesRule n depth hr
    | some name =>
      cases hr
      exact steps_propertyValues n name depth
  | object n depth => exact steps_objectRule n depth hr
  | array n depth => exact steps_arrayRule n depth hr
  | functions n depth => exact steps_functionsRule n depth hr
  | aliases n =>
    cases hr
    exact StepsBy.bind (steps_follow ..) fun _ => steps_pure _

lemma recalled_of_frames {s : Session} (h : s.frames = []) (q : Question α) :
    q.recalled s = q.remembered s.toMemory := by
  cases q <;> simp [recalled, remembered, h]

end Question

def Session.Uncut (s t : Session) : Prop :=
  t.rejections = s.rejections ∧ t.truncations = s.truncations

instance (s t : Session) : Decidable (s.Uncut t) := inferInstanceAs (Decidable (_ ∧ _))

def Outcome.settle (k : Key) (s : Session) (keep : α → Memory → Memory) : Outcome α → Outcome α
  | .ok a t => .ok a { t with
      toMemory := if s.Uncut t ∧ s.frames = [] then keep a t.toMemory else t.toMemory
      visited := t.visited.erase k }
  | .error e t => .error e { t with visited := t.visited.erase k }

/-- Only the counts of what was refused and cut off are higher. -/
inductive Memory.Recounts (m : Memory) : Memory → Prop
  | mk {rejections truncations} : m.rejections ≤ rejections → m.truncations ≤ truncations →
      Recounts m { m with rejections := rejections, truncations := truncations }

namespace Memory.Recounts

lemma refl (m : Memory) : m.Recounts m := .mk (Nat.le_refl _) (Nat.le_refl _)

lemma truncate (m : Memory) : m.Recounts { m with truncations := m.truncations + 1 } :=
  .mk (Nat.le_refl _) (Nat.le_succ _)

lemma refuse (m : Memory) : m.Recounts { m with rejections := m.rejections + 1 } := .mk (Nat.le_succ _) (Nat.le_refl _)

lemma quiet {m m' : Memory} (h : m.Recounts m') : m.Quiet m' := by
  obtain ⟨hrej, htruncations⟩ := h
  exact { Quiet.refl m with rejections := hrej, truncations := htruncations }

end Memory.Recounts

/-- What a computation from the session `s` leaves has `I`, and its answer has `P` if it is whole.
-/
structure Outcome.Upholds (I : Memory → Prop) (P : α → Memory → Prop) (s : Session) (o : Outcome α) : Prop where
  kept : I (session o).toMemory
  whole : ∀ a t, o = .ok a t → s.Uncut t → P a t.toMemory

namespace Outcome.Upholds

variable {I : Memory → Prop} {s t : Session} {a : α}

lemma here (hI : I s.toMemory) (hP : P a s.toMemory) : Outcome.Upholds I P s (.ok a s) := by
  refine ⟨hI, ?_⟩
  rintro _ _ ⟨⟩ -
  exact hP

lemma cut (hI : I t.toMemory) (hcut : ¬s.Uncut t) : Outcome.Upholds I P s (.ok a t) := by
  refine ⟨hI, ?_⟩
  rintro _ _ ⟨⟩ huncut
  exact absurd huncut hcut

end Outcome.Upholds

namespace Engine

variable {reply : Reply} {s : Session} {k : Key} {depth : Nat} {none_ : α}
  {lookUp : Memory → Option α} {keep : α → Memory → Memory} {rule : Option (Engine α)}

lemma runWith_consider_known {a : α} {rule : Engine α} (hd : depth ≤ F.limits.maxDepth)
    (hframes : s.frames = []) (ha : lookUp s.toMemory = some a) :
    (consider k depth none_ lookUp keep (some rule)).runWith reply F s = .ok a s := by
  simp [consider, limits, runWith, bind, pure, Nat.not_lt.mpr hd, hframes, ha]

lemma runWith_limits_bind (f : Limits → Engine α) :
    (limits >>= f).runWith reply F s = (f F.limits).runWith reply F s := rfl

lemma runWith_session_bind (f : Session → Engine α) : (session >>= f).runWith reply F s = (f s).runWith reply F s := rfl

def runOnce (reply : Reply) (F : Facts) (s : Session) (k : Key) (nothing : α) (keep : α → Memory → Memory)
    (x : Engine α) : Outcome α :=
  if k ∈ s.visited then .ok nothing { s with rejections := s.rejections + 1 }
  else (x.runWith reply F { s with visited := k :: s.visited }).settle k s keep

lemma upholds_runOnce {I J : Memory → Prop} (hreject : I { s.toMemory with rejections := s.rejections + 1 })
    (hx : k ∉ s.visited → (x.runWith reply F { s with visited := k :: s.visited }).Upholds J P s)
    (hleave : ∀ m, J m → I m)
    (hkeep : ∀ a m, k ∉ s.visited → s.frames = [] → P a m → J m → I (keep a m) ∧ P a (keep a m)) :
    (runOnce reply F s k none_ keep x).Upholds I P s := by
  unfold runOnce
  split
  · exact .cut hreject fun h => Nat.succ_ne_self _ h.1
  next hk =>
    obtain ⟨hkept, hwhole⟩ := hx hk
    cases hrun : x.runWith reply F { s with visited := k :: s.visited } with
    | error e t =>
      rw [hrun] at hkept
      refine ⟨hleave _ hkept, ?_⟩
      rintro _ _ ⟨⟩
    | ok a t =>
      rw [hrun] at hkept
      simp only [settle]
      split
      next huncut =>
        obtain ⟨hI, hP⟩ := hkeep a _ hk huncut.2 (hwhole a t hrun huncut.1) hkept
        refine ⟨hI, ?_⟩
        rintro _ _ ⟨⟩ -
        exact hP
      · refine ⟨hleave _ hkept, ?_⟩
        rintro _ _ ⟨⟩ huncut
        exact hwhole a t hrun huncut

lemma runWith_guarded_bind (hbal : reply.Balanced) {x : Engine β} (g : β → α)
    {after : Option (β × Bool) → Engine α} (hnone : ∀ t, (after none).runWith reply F t = .ok none_ t)
    (hsome : ∀ b whole (t : Session), t.frames = s.frames → (after (some (b, whole))).runWith reply F t =
      .ok (g b) (if whole && t.frames.isEmpty then { t with toMemory := keep (g b) t.toMemory } else t)) :
    (guarded k x >>= after).runWith reply F s = runOnce reply F s k none_ keep (return g (← x)) := by
  change (andThen _ _).runWith reply F s = _
  rw [runWith_andThen, runOnce]
  by_cases hk : k ∈ s.visited
  · simp only [runWith, List.contains_iff_mem, hk, if_true]
    exact hnone _
  · change _ = ite _ _ (settle k s keep ((andThen x fun b => pure (g b)).runWith ..))
    rw [if_neg hk, runWith_guarded_fresh (by simpa using hk), runWith_andThen]
    cases hrun : x.runWith reply F { s with visited := k :: s.visited } with
    | error e t => rfl
    | ok b t =>
      have hframes := frames_runWith hbal hrun
      refine (hsome b _ { t with visited := t.visited.erase k } hframes).trans ?_
      simp only [pure, runWith, settle, hframes]
      by_cases hkeep : s.Uncut t ∧ s.frames = []
      · obtain ⟨⟨hrej, htruncations⟩, hnil⟩ := hkeep
        simp [Session.Uncut, hrej, htruncations, hnil]
      · rw [if_neg hkeep, if_neg (by simpa [Session.Uncut] using hkeep)]

lemma runOnce_return (x : Engine α) :
    runOnce reply F s k none_ keep (return id (← x)) = runOnce reply F s k none_ keep x := by
  unfold runOnce
  change ite _ _ (settle _ _ _ ((andThen x fun a => pure a).runWith ..)) = _
  rw [runWith_andThen]
  cases x.runWith reply F { s with visited := k :: s.visited } <;> rfl

lemma exists_runOnce_return (hk : k ∉ s.visited) {x : Engine β} {b : β} {t : Session}
    (h : x.runWith reply F { s with visited := k :: s.visited } = .ok b t) (g : β → α) :
    ∃ u, runOnce reply F s k none_ keep (return g (← x)) = .ok (g b) u := by
  rw [runOnce, if_neg hk]
  change ∃ u, settle k s keep ((andThen x fun b => pure (g b)).runWith ..) = _
  rw [runWith_andThen, h]
  exact ⟨_, rfl⟩

lemma runWith_consider_missed (hbal : reply.Balanced) {rule : Engine α} (hd : depth ≤ F.limits.maxDepth)
    (hmiss : s.frames = [] → lookUp s.toMemory = none) :
    (consider k depth none_ lookUp keep (some rule)).runWith reply F s = runOnce reply F s k none_ keep rule := by
  have hmemo : (if !s.frames.isEmpty then none else lookUp s.toMemory) = none := by
    by_cases hframes : s.frames = [] <;> simp_all
  rw [consider, runWith_limits_bind, if_neg (Nat.not_lt.mpr hd)]
  dsimp only
  rw [runWith_session_bind, hmemo, ← runOnce_return]
  refine runWith_guarded_bind hbal id (fun _ => rfl) fun a whole t hframes => ?_
  rw [← hframes]
  simp only [Bool.not_not]
  split <;> rfl

end Engine

namespace Question

variable {reply : Reply} {s : Session}

def handle (reply : Reply) (F : Facts) (s : Session) (q : Question α) : Outcome α :=
  match q.plain? with
  | some a => .ok a s
  | none =>
    if F.limits.maxDepth < q.depth then .ok q.nothing { s with truncations := s.truncations + 1 }
    else
      match q.body? F, q.recalled s with
      | none, _ => .ok q.nothing s
      | some _, some a => .ok a s
      | some body, none => runOnce reply F s q.key q.nothing q.remember body

lemma runWith_consider (hbal : reply.Balanced) (hplain : q.plain? = none)
    (hrecalled : q.recalled s = if s.frames = [] then q.remembered s.toMemory else none) :
    (consider q.key q.depth q.nothing q.remembered q.remember (q.body? F)).runWith reply F s = q.handle reply F s := by
  unfold handle
  rw [hplain]
  dsimp only
  split
  next hd => simp [consider, limits, truncate, runWith, bind, pure, hd]
  next hd =>
    have hd := Nat.le_of_not_lt hd
    split
    next hbody =>
      rw [hbody]
      simp [consider, limits, runWith, bind, pure, Nat.not_lt.mpr hd]
    next r a hbody hknown =>
      rw [hbody]
      rw [hrecalled] at hknown
      split at hknown
      next hframes => exact runWith_consider_known hd hframes hknown
      · cases hknown
    next r hbody hmiss =>
      rw [hbody]
      exact runWith_consider_missed hbal hd fun hframes => by simpa [hrecalled, hframes] using hmiss

lemma runWith_valueAliases (hbal : reply.Balanced) (n : Node) :
    (valueAliases n).runWith reply F s = (aliases n).handle reply F s := by
  rw [valueAliases]
  simp only [handle, plain?, depth, Nat.not_lt_zero, if_false, body?, recalled, bind, runWith_andThen, runWith]
  cases s.aliases.get? n.ident with
  | some known => rfl
  | none =>
    refine runWith_guarded_bind hbal Flow.found (fun _ => rfl) fun fl whole t _ => ?_
    simp only [runWith_andThen, runWith]
    split <;> rfl

lemma runWith_rule (hbal : reply.Balanced) (q : Question α) : q.rule.runWith reply F s = q.handle reply F s := by
  cases q with
  | values n property depth =>
    cases property with
    | none =>
      simp only [rule]
      split
      next text htext => simp only [handle, plain?, htext, Option.map_some, runWith, pure]
      next htext => exact runWith_consider hbal (q := .values n none depth) (by rw [plain?, htext]; rfl) rfl
    | some name => exact runWith_consider hbal (q := .values n (some name) depth) rfl rfl
  | object n depth => exact runWith_consider hbal (q := .object n depth) rfl rfl
  | array n depth => exact runWith_consider hbal (q := .array n depth) rfl rfl
  | functions n depth => exact runWith_consider hbal (q := .functions n depth) rfl rfl
  | aliases n => exact runWith_valueAliases hbal n

lemma upholds_rule (hbal : reply.Balanced) {I J : Memory → Prop} (hI : ∀ m, s.toMemory.Recounts m → I m)
    (hplain : ∀ a, q.plain? = some a → P a s.toMemory)
    (hnothing : q.plain? = none → q.body? F = none → P q.nothing s.toMemory)
    (hknown : ∀ a r, q.body? F = some r → q.recalled s = some a → P a s.toMemory)
    (hbody : ∀ r, q.plain? = none → q.depth ≤ F.limits.maxDepth → q.body? F = some r → q.key ∉ s.visited →
      (r.runWith reply F { s with visited := q.key :: s.visited }).Upholds J P s)
    (hleave : ∀ m, J m → I m)
    (hkeep : ∀ r a m, q.body? F = some r → q.key ∉ s.visited → q.recalled s = none → s.frames = [] → P a m → J m →
      I (q.remember a m) ∧ P a (q.remember a m)) :
    (q.rule.runWith reply F s).Upholds I P s := by
  rw [q.runWith_rule hbal]
  unfold handle
  split
  next a ha => exact .here (hI _ (.refl _)) (hplain a ha)
  next hnone =>
    split
    · exact .cut (hI _ (.truncate _)) fun h => Nat.succ_ne_self _ h.2
    next hd =>
      split
      next hr => exact .here (hI _ (.refl _)) (hnothing hnone hr)
      next r a hr ha => exact .here (hI _ (.refl _)) (hknown a r hr ha)
      next r hr hmiss =>
        refine upholds_runOnce (hI _ (.refuse _)) (hbody r hnone (Nat.le_of_not_lt hd) hr) hleave ?_
        exact fun a m hk => hkeep r a m hr hk hmiss

end Question

/-- A relation of memories, while the given keys are marked, that composes and that quiet changes
are in. -/
structure Steady (S : List Key → Memory → Memory → Prop) : Prop where
  quiet : ∀ {marked : List Key} {m m' : Memory}, m.Quiet m' → S marked m m'
  trans : ∀ {marked : List Key} {m m' m'' : Memory}, S marked m m' → S marked m' m'' → S marked m m''
  unmark : ∀ {k : Key} {marked : List Key} {m m' : Memory}, S (k :: marked) m m' → S marked m m'
  remember : ∀ {α : Type} {q : Question α} {a : α} {marked : List Key} {m m' : Memory},
    q.key ∉ marked → q.remembered m = none → S (q.key :: marked) m m' → S marked m (q.remember a m')

variable {S : List Key → Memory → Memory → Prop}

def Reply.Keeps (reply : Reply) (S : List Key → Memory → Memory → Prop) : Prop :=
  ∀ (α : Type) (q : Question α) (F : Facts) (s : Session), S s.visited s.toMemory (session (reply α q F s)).toMemory

namespace Engine

variable {reply : Reply}

lemma Quiet.keeps (hS : Steady S) (hbal : reply.Balanced) (hreply : reply.Keeps S) (hx : x.Quiet) (s : Session) :
    S s.visited s.toMemory (Outcome.session (x.runWith reply F s)).toMemory := by
  induction x generalizing s with
  | done | facts | session | fail => exact hS.quiet (.refl _)
  | update f => exact hS.quiet (hx s.toMemory)
  | ask q => exact hreply _ q F s
  | andThen x f ihx ihf =>
    have hfirst := ihx hx.1 s
    rw [session_andThen]
    cases hrun : x.runWith reply F s with
    | error e t => simpa [hrun, Outcome.session] using hfirst
    | ok a t =>
      rw [hrun] at hfirst
      refine hS.trans hfirst ?_
      rw [← visited_runWith hbal hrun]
      exact ihf a (hx.2 a) t
  | guarded k x ih =>
    rw [session_guarded]
    split
    · exact hS.quiet { Quiet.refl s.toMemory with rejections := Nat.le_succ _ }
    · exact hS.unmark (ih hx { s with visited := k :: s.visited })
  | underFrame frame x ih =>
    rw [session_underFrame]
    exact ih hx { s with frames := s.frames ++ [frame] }
  | underOuter index x ih =>
    rw [session_underOuter]
    exact ih hx { s with frames := s.frames.take index }

lemma rule_keeps (hS : Steady S) (hbal : reply.Balanced) (hreply : reply.Keeps S) (q : Question α)
    (s : Session) : S s.visited s.toMemory (Outcome.session (q.rule.runWith reply F s)).toMemory := by
  refine (upholds_rule (I := S s.visited s.toMemory) (J := S (q.key :: s.visited) s.toMemory)
    (P := fun _ _ => True) hbal ?_ (by simp) (by simp) (by simp) ?_ ?_ ?_).kept
  · exact fun m hm => hS.quiet hm.quiet
  · intro r _ _ hr _
    exact ⟨(steps_body hr).quiet.keeps hS hbal hreply { s with visited := q.key :: s.visited }, by simp⟩
  · exact fun m hm => hS.unmark hm
  · intro _ a m _ hk hmiss hframes _ hm
    exact ⟨hS.remember hk (q.recalled_of_frames hframes ▸ hmiss) hm, trivial⟩

lemma answerWithin_keeps (hS : Steady S) (fuel : Nat) : (answerWithin fuel).Keeps S := by
  induction fuel with
  | zero => exact fun _ _ _ _ => hS.quiet (.refl _)
  | succ fuel ih => exact fun _ q _ s => rule_keeps hS (balanced_answer fuel) ih q s

lemma Quiet.run_keeps (hS : Steady S) (hx : x.Quiet) (s : Session) :
    S s.visited s.toMemory (Outcome.session (x.run F s)).toMemory :=
  hx.keeps hS (balanced_answer _) (answerWithin_keeps hS _) s

end Engine

/-- Every answer is remembered still, shapes have only gained properties, and under the marked keys
nothing is new. -/
structure Memory.Recalls (marked : List Key) (m m' : Memory) : Prop where
  kept : ∀ {α : Type} (q : Question α) (a : α), q.remembered m = some a → q.remembered m' = some a
  marked : ∀ {α : Type} (q : Question α), q.key ∈ marked → q.remembered m' = q.remembered m
  shapes : ∀ (ref : Nat) (shape : Shape), m.shapes[ref]? = some shape →
    ∃ wider, m'.shapes[ref]? = some wider ∧ shape.Gains wider

lemma Question.shapes_remember (q : Question α) (a : α) (m : Memory) : (q.remember a m).shapes = m.shapes := by
  cases q <;> rfl

namespace Memory

variable {marked : List Key} {m m' m'' : Memory}

lemma Quiet.recalls (h : m.Quiet m') : m.Recalls marked m' where
  kept q _ ha := (q.remembered_of_quiet h).trans ha
  marked q _ := q.remembered_of_quiet h
  shapes := h.shapes

lemma Recalls.trans (h : m.Recalls marked m') (h' : m'.Recalls marked m'') : m.Recalls marked m'' where
  kept q a ha := h'.kept q a (h.kept q a ha)
  marked q hq := (h'.marked q hq).trans (h.marked q hq)
  shapes ref shape href := by
    obtain ⟨wider, hwider, hgains⟩ := h.shapes ref shape href
    obtain ⟨widest, hwidest, hgains'⟩ := h'.shapes ref wider hwider
    exact ⟨widest, hwidest, hgains.trans hgains'⟩

lemma Recalls.remember (hkey : q.key ∉ marked) (hnone : q.remembered m = none) (h : m.Recalls (q.key :: marked) m')
    (a : α) : m.Recalls marked (q.remember a m') := by
  -- What was remembered under the key pre would be an answer to the same question.
  have hnew : ∀ {β : Type} (p : Question β), p.key = q.key → p.remembered m = none := by
    intro β p hp
    cases q <;> cases p <;> simp_all [key, remembered]
  refine ⟨fun p b hb => ?_, fun p hp => ?_, ?_⟩
  · have hne : p.key ≠ q.key := fun hp => by simp [hnew p hp] at hb
    rw [remembered_other hne]
    exact h.kept p b hb
  · have hne : p.key ≠ q.key := fun heq => hkey (heq ▸ hp)
    rw [remembered_other hne]
    exact h.marked p (List.mem_cons_of_mem _ hp)
  · rw [shapes_remember]
    exact h.shapes

end Memory

lemma steady_recalls : Steady Recalls where
  quiet h := h.recalls
  trans h h' := h.trans h'
  unmark h := ⟨h.kept, fun q hq => h.marked q (List.mem_cons_of_mem _ hq), h.shapes⟩
  remember hkey hnone h := h.remember hkey hnone _

def Memory.Stable (I : Memory → Prop) : Prop :=
  ∀ {m m' : Memory}, m.Quiet m' → I m → I m'

/-- A property of what has been worked out that neither quiet changes nor new answers touch. -/
structure Memory.Lasting (I : Memory → Prop) : Prop where
  stable : Stable I
  remember : ∀ {α : Type} (q : Question α) (a : α) {m : Memory}, I m → I (q.remember a m)

def Facts.AnswersKeep (F : Facts) (I : Memory → Prop) (fuel : Nat) : Prop :=
  ∀ (α : Type) (q : Question α) (s : Session) (least : Option Nat), F.nesting s.visited least ≤ fuel →
    q.Asked F → q.After least → s.Within F → I s.toMemory → I (session (answerWithin fuel α q F s)).toMemory

namespace Engine

variable {I : Memory → Prop} {least : Option Nat} {Q : α → Prop} {s : Session}

lemma steady_of_lasting (hI : Lasting I) : Steady fun _ m m' => I m → I m' where
  quiet h := hI.stable h
  trans h h' hm := h' (h hm)
  unmark h := h
  remember _ _ h hm := hI.remember _ _ (h hm)

lemma answersKeep_of_lasting (hI : Lasting I) (fuel : Nat) : F.AnswersKeep I fuel :=
  fun _ q s _ _ _ _ _ => answerWithin_keeps (steady_of_lasting hI) fuel _ q F s

lemma Meets.strengthen {J : Memory → Prop} (hJ : ∀ m, J m → I m) (hR : ∀ m m', R m m' → J m → J m')
    (h : x.Meets F least Q I) (hx : x.ChangesBy R) : x.Meets F least Q J := by
  induction x generalizing least with
  | done | facts | fail | ask => exact h
  | session => exact fun s hs hs' => h s hs (hJ _ hs')
  | update f => exact ⟨fun m hm hm' => ⟨(h.1 m hm (hJ m hm')).1, hR m _ (hx m) hm'⟩, h.2⟩
  | andThen x f ihx ihf => exact (ihx h hx.1).mono fun a ha => ihf a ha (hx.2 a)
  | guarded k x ih => exact ⟨h.1, h.2.1, ih h.2.2 hx⟩
  | underFrame frame x ih => exact ⟨h.1, ih h.2 hx⟩
  | underOuter index x ih => exact ih h hx

lemma Meets.keeping (hI : Stable I) (h : x.Meets F least Q) (hx : x.Quiet) : x.Meets F least Q I :=
  h.strengthen (fun _ _ => trivial) (fun _ _ hm => hI hm) (changes_quiet_iff.mpr hx)

lemma Meets.runWith_keeping (hF : F.Sound) (hI : Stable I) {fuel : Nat} (hans : F.AnswersKeep I fuel)
    (h : x.Meets F least Q I) (hs : s.Within F) (hIs : I s.toMemory) (hfuel : F.nesting s.visited least ≤ fuel) :
    Outcome.Good F Q (x.runWith (answerWithin fuel) F s) ∧
      I (Outcome.session (x.runWith (answerWithin fuel) F s)).toMemory :=
  h.good_keeping (balanced_answer fuel)
    (fun _ q t l hl hq hql ht => answerWithin_good hF fuel q t l hl hq hql ht) hans
    (fun m => hI { Quiet.refl m with rejections := Nat.le_succ _ }) s hs hIs hfuel

lemma Meets.run_keeping (hF : F.Sound) (hI : Stable I) (hans : F.AnswersKeep I F.openQuestions)
    (h : x.Meets F least Q I) (hs : s.Within F) (hIs : I s.toMemory) :
    Outcome.Good F Q (x.run F s) ∧ I (Outcome.session (x.run F s)).toMemory :=
  h.runWith_keeping hF hI hans hs hIs (nesting_le_open F _ _)

lemma Meets.run_keeping_bind (hF : F.Sound) (hI : Stable I) (hans : F.AnswersKeep I F.openQuestions)
    {x : Engine β} {P : β → Prop} {f : β → Engine α} (hgood : Outcome.Good F P (x.run F s))
    (hkept : I (Outcome.session (x.run F s)).toMemory) (hf : ∀ b t, x.run F s = .ok b t → (f b).Meets F (some 0) Q I) :
    Outcome.Good F Q ((x >>= f).run F s) ∧ I (Outcome.session ((x >>= f).run F s)).toMemory := by
  change Outcome.Good F Q ((andThen x f).run F s) ∧ I (Outcome.session ((andThen x f).run F s)).toMemory
  unfold run at *
  rw [runWith_andThen]
  cases hrun : x.runWith (answerWithin F.openQuestions) F s with
  | error e t =>
    rw [hrun] at hgood hkept
    exact ⟨hgood, hkept⟩
  | ok b t =>
    rw [hrun] at hgood hkept
    exact (hf b t hrun).run_keeping hF hI hans hgood.1 hkept

end Engine

/-! ## What questions leave alone

No rule of resolution reads or changes what was found out about request objects and about taint. -/

/-- The same is remembered about request objects and about taint. -/
structure Memory.SameApart (m m' : Memory) : Prop where
  xhr : m'.xhr = m.xhr
  taints : m'.taints = m.taints

lemma Memory.SameApart.trans {m m' m'' : Memory} (h : m.SameApart m') (h' : m'.SameApart m'') : m.SameApart m'' :=
  ⟨h'.xhr.trans h.xhr, h'.taints.trans h.taints⟩

instance : HasRuleChanges SameApart where
  truncate _ := ⟨rfl, rfl⟩
  newShape _ _ := ⟨rfl, rfl⟩
  changeShape _ _ _ _ := ⟨rfl, rfl⟩
  paramValues _ _ := ⟨rfl, rfl⟩
  callSites _ _ := ⟨rfl, rfl⟩
  owners _ _ := ⟨rfl, rfl⟩
  reads _ _ := ⟨rfl, rfl⟩

namespace Engine

lemma ChangesBy.sameApart {reply : Reply} (hreply : ∀ (β : Type) (q : Question β) (s : Session),
      s.toMemory.SameApart (Outcome.session (reply β q F s)).toMemory)
    {x : Engine α} (hx : x.ChangesBy SameApart) (s : Session) :
    s.toMemory.SameApart (Outcome.session (x.runWith reply F s)).toMemory :=
  hx.keeps (fun q t ht => ht.trans (hreply _ q t)) (fun _ hm => hm.trans ⟨rfl, rfl⟩)
    (fun _ _ hchange hm => hm.trans hchange)
    s ⟨rfl, rfl⟩

lemma sameApart_answerWithin (fuel : Nat) (q : Question α) (s : Session) :
    s.toMemory.SameApart (Outcome.session (answerWithin fuel α q F s)).toMemory := by
  induction fuel generalizing α s with
  | zero => exact ⟨rfl, rfl⟩
  | succ fuel ih =>
    refine (Question.upholds_rule (I := s.toMemory.SameApart) (J := s.toMemory.SameApart) (P := fun _ _ => True)
      (balanced_answer fuel) ?_ (by simp) (by simp) (by simp) ?_ (fun _ h => h) ?_).kept
    · rintro _ ⟨-, -⟩
      exact ⟨rfl, rfl⟩
    · intro r _ _ hr _
      exact ⟨(Question.steps_body hr).changesBy.sameApart (fun _ p t => ih p t)
        { s with visited := q.key :: s.visited },
        by simp⟩
    · intro _ a m _ _ _ _ _ hm
      refine ⟨hm.trans ?_, trivial⟩
      cases q <;> exact ⟨rfl, rfl⟩

lemma ChangesBy.sameApart_of_run {x : Engine α} (hx : x.ChangesBy SameApart) {a : α}
    (h : x.run F s = .ok a t) : s.toMemory.SameApart t.toMemory := by
  have hrun := hx.sameApart (F := F) (fun _ q t => sameApart_answerWithin F.openQuestions q t) s
  rw [Engine.run] at h
  rwa [h] at hrun

end Engine

end ScriptAudit
